import ComputerSystems.Loop.Scan
import ComputerSystems.Memory.File
import ComputerSystems.Transition.Run
import Mathlib.Algebra.GroupWithZero.Nat
import Mathlib.Logic.Function.Basic

/-!
# Virtual memory over a swap file

The globals and functions of `Practicum/virtualmem.c`: a page table, the frames
of physical memory and a swap file that is read when a page is not mapped and
never written. A call that ends in `exit` has no next state.
-/

namespace ComputerSystems.SwapFile

open ComputerSystems.Loop
open ComputerSystems.Transition

/-- `PAGE_SIZE`. -/
def pageSize : Nat := 4096

/-- `NUM_PAGES`. -/
def numPages : Nat := 1024

instance : NeZero numPages := ⟨by decide⟩

/-- `SWAP_SIZE`. -/
def swapSize : Nat := numPages * pageSize

/-- A buffer of one full page. -/
abbrev Page := {data : List (BitVec 8) // data.length = pageSize}

/-- `lseek` to an offset from the start, then `read` of one page. The call fails
unless the file has a full page there. -/
def readPageAt (file : File) (offset : Nat) : Option Page :=
  if full : (file.read offset pageSize).length = pageSize then
    some ⟨file.read offset pageSize, full⟩
  else
    none

/-- The globals. -/
structure State where
  pageTable : Nat → Int
  physicalMemory : Memory
  swapFd : File

/-- `init_virtual_memory`, given what `malloc` and `open` returned and whether
`ftruncate` succeeded. -/
def initVirtualMemory (allocated : Option Memory) (opened : Option File) (truncated : Bool) :
    Option State := do
  let physicalMemory ← allocated
  let file ← opened
  if truncated then
    some {
      pageTable := fun _ => -1
      physicalMemory := physicalMemory
      swapFd := file.ftruncate swapSize }
  else
    none

/-- The offset in physical memory of the frame that a page table entry names. -/
def frameOffset (frame : Int) : Nat := frame.toNat * pageSize

/-- `read_page`. -/
def readPage (state : State) (pageNum : Nat) : Option Page :=
  if state.pageTable pageNum ≠ -1 then
    some ⟨state.physicalMemory.bytes (frameOffset (state.pageTable pageNum)) pageSize,
      Memory.length_bytes _ _ _⟩
  else
    readPageAt state.swapFd (pageNum * pageSize)

/-- `write_page`. The frame of a new page is the first index of the page table
whose entry is `-1`. -/
def writePage (state : State) (pageNum : Nat) (buf : Page) : Option State :=
  if state.pageTable pageNum ≠ -1 then
    some { state with
      physicalMemory :=
        state.physicalMemory.copy (frameOffset (state.pageTable pageNum)) buf.val }
  else do
    let freeFrame ← firstIndex state.pageTable (-1) 0 numPages
    let swapped ← readPageAt state.swapFd (pageNum * pageSize)
    let loaded := state.physicalMemory.copy (frameOffset freeFrame) swapped.val
    some { state with
      pageTable := Function.update state.pageTable pageNum freeFrame
      physicalMemory := loaded.copy (frameOffset freeFrame) buf.val }

/-- A call with its page number in range. -/
inductive Call
  | write (page : Fin numPages) (data : Page)
  | read (page : Fin numPages)

/-- What a call leaves behind. -/
def call (state : State) : Call → Option State
  | .write page data => writePage state page data
  | .read page => (readPage state page).map fun _ => state

/-! ## What the pages are for -/

/-- A store with a page for every page number: what a caller may expect. -/
abbrev Store := Fin numPages → Page

/-- A write replaces one page of the store; a read none. -/
def Store.call (store : Store) : Call → Store
  | .write page data => Function.update store page data
  | .read _ => store

/-- The store after some calls: each page holds the data of its latest write, or
what it held at first. -/
def Store.after (store : Store) (calls : List Call) : Store :=
  calls.foldl Store.call store

/-- Two different mapped pages never share a frame. -/
def FramesDistinct (state : State) : Prop :=
  ∀ first second : Fin numPages, state.pageTable first ≠ -1 →
    state.pageTable first = state.pageTable second → first = second

/-- Every page reads as the store has it. -/
def Reads (state : State) (store : Store) : Prop :=
  ∀ page : Fin numPages, readPage state page = some (store page)

end ComputerSystems.SwapFile
