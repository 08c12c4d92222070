import ComputerSystems.Loop.While
import ComputerSystems.Memory.File

/-!
# The page table of the practicum

The page table functions of `PracticumI/malloc.c`. `load_page` and `access_page`
call each other, so both take fuel, of which every call spends one unit; `exit`
is a crash. The table, the status bytes and the two memories are one state. Page
numbers and array indices are natural numbers, the `id` fields integers.
-/

namespace ComputerSystems.PageLoading

open ComputerSystems.Loop

/-- `PAGE_SIZE`. -/
def pageSize : Nat := 4096

/-- `NUM_PAGES`. -/
def numPages : Nat := 16

/-- `USEDBIT`. -/
def usedBit : BitVec 8 := 0x80#8

/-- `DIRTYBIT`. -/
def dirtyBit : BitVec 8 := 0x40#8

/-- `Page`. -/
structure Page where
  id : Int
  lastAccessTime : Int
  resident : Bool
  diskLocation : Int

/-- `PageTable`. -/
structure PageTable where
  pages : Nat → Page
  numPages : Nat

/-- The globals, and the table that `load_page` and `access_page` are given. -/
structure State where
  table : PageTable
  pageing : BitVec 8 → BitVec 8
  physicalMemory : Memory
  swapFd : File

/-- `init_page_table`. The other fields of the pages keep what the memory
returned by `pm_malloc_lock` contains. -/
def initPageTable (fresh : Nat → Page) (numPages : Nat) : PageTable where
  pages := fun i => { fresh i with id := i, lastAccessTime := 0 }
  numPages := numPages

/-- The loop of `find_lru_page`: the index `i`, the best page so far and the
number of iterations left. -/
def lruFrom (table : PageTable) (i lruPage : Nat) : Nat → Nat
  | 0 => lruPage
  | left + 1 =>
      if (table.pages i).lastAccessTime < (table.pages lruPage).lastAccessTime then
        lruFrom table (i + 1) i left
      else
        lruFrom table (i + 1) lruPage left

/-- `find_lru_page`. -/
def findLruPage (table : PageTable) : Nat :=
  lruFrom table 1 0 (table.numPages - 1)

/-- Assign to fields of one page. -/
def State.setPage (state : State) (i : Nat) (change : Page → Page) : State :=
  { state with
    table := { state.table with
      pages := Function.update state.table.pages i (change (state.table.pages i)) } }

/-! ## Status bits -/

/-- `is_page_used`. The argument is converted to eight bits. -/
def isPageUsed (state : State) (pageNum : Nat) : Bool :=
  state.pageing (BitVec.ofNat 8 pageNum) &&& usedBit != 0#8

/-- `is_page_dirty`. -/
def isPageDirty (state : State) (pageNum : Nat) : Bool :=
  state.pageing (BitVec.ofNat 8 pageNum) &&& dirtyBit != 0#8

/-- `set_page_used`. -/
def setPageUsed (state : State) (pageNum : Nat) (used : Bool) : State :=
  let status := state.pageing (BitVec.ofNat 8 pageNum)
  { state with
    pageing := Function.update state.pageing (BitVec.ofNat 8 pageNum)
      (if used then status ||| usedBit else status &&& ~~~usedBit) }

/-- The first `i < NUM_PAGES` that is not used. -/
def freePage (state : State) : Option Nat :=
  (List.range numPages).find? fun i => !isPageUsed state i

/-! ## The swap file -/

/-- `pread` of one page, which ends the program unless it reads all of it. -/
def preadPage (state : State) (diskLocation : Int) : Outcome (List (BitVec 8)) :=
  if 0 ≤ diskLocation ∧ (state.swapFd.read diskLocation.toNat pageSize).length = pageSize then
    .done (state.swapFd.read diskLocation.toNat pageSize)
  else
    .crash

/-- `pwrite` of one page, which ends the program when the offset is negative. -/
def pwritePage (state : State) (frame : Nat) (diskLocation : Int) : Outcome State :=
  if 0 ≤ diskLocation then
    .done { state with
      swapFd := state.swapFd.write diskLocation.toNat
        (state.physicalMemory.bytes (frame * pageSize) pageSize) }
  else
    .crash

/-- Copy a page into a frame of physical memory. -/
def State.fillFrame (state : State) (frame : Nat) (data : List (BitVec 8)) : State :=
  { state with physicalMemory := state.physicalMemory.copy (frame * pageSize) data }

/-! ## Loading and accessing -/

/-- How the loop of `load_page` ends: at a page with the `id` it looks for, or
with the last free slot it has seen. -/
inductive Scan
  | found (i : Nat)
  | freeSpace (slot : Option Nat)

/-- The loop of `load_page`. -/
def loadScan (table : PageTable) (pageId i : Nat) (freeSpace : Option Nat) : Nat → Scan
  | 0 => .freeSpace freeSpace
  | left + 1 =>
      if (table.pages i).id = pageId then
        .found i
      else if (table.pages i).lastAccessTime = 0 then
        loadScan table pageId (i + 1) (some i) left
      else
        loadScan table pageId (i + 1) freeSpace left

/-- What `access_page` does after its call of `load_page`. -/
def swapIn (state : State) (lruPageId pageId : Nat) (currentTime : Int) : Outcome State := do
  let used := setPageUsed state pageId true
  match freePage used with
  | none => .crash
  | some freePageId =>
      let saved ←
        if isPageDirty used lruPageId then
          pwritePage used lruPageId (used.table.pages lruPageId).diskLocation
        else
          pure used
      let evicted := saved.setPage lruPageId fun page => { page with resident := false }
      let data ← preadPage evicted (evicted.table.pages pageId).diskLocation
      let loaded := evicted.fillFrame freePageId data
      let swapped := loaded.setPage lruPageId fun page =>
        { page with
          id := pageId
          resident := true
          diskLocation := (loaded.table.pages pageId).diskLocation }
      let updated := swapped.setPage pageId fun page =>
        { page with resident := true, id := freePageId, lastAccessTime := currentTime }
      pure (setPageUsed updated lruPageId false)

/-- What `load_page` does after its last call of `access_page`. -/
def makeResident (state : State) (pageId : Nat) (currentTime : Int) : Outcome State := do
  let loaded ←
    if (state.table.pages pageId).resident then
      pure state
    else do
      let data ← preadPage state (state.table.pages pageId).diskLocation
      pure ((state.fillFrame pageId data).setPage pageId fun page => { page with resident := true })
  pure (loaded.setPage pageId fun page => { page with lastAccessTime := currentTime })

mutual

/-- `access_page`. -/
def accessPage : Nat → State → Nat → Int → Outcome State
  | 0, _, _, _ => .running
  | fuel + 1, state, pageId, currentTime => do
      let lruPageId := findLruPage state.table
      let touched := state.setPage pageId fun page => { page with lastAccessTime := currentTime }
      let loaded ← loadPage fuel touched pageId currentTime
      swapIn loaded lruPageId pageId currentTime

/-- `load_page`. -/
def loadPage : Nat → State → Nat → Int → Outcome State
  | 0, _, _, _ => .running
  | fuel + 1, state, pageId, currentTime =>
      match loadScan state.table pageId 0 none state.table.numPages with
      | .found i => accessPage fuel state i currentTime
      | .freeSpace (some slot) => do
          let named := state.setPage slot fun page => { page with id := pageId }
          let accessed ← accessPage fuel named slot currentTime
          makeResident accessed pageId currentTime
      | .freeSpace none => do
          let lruPage := findLruPage state.table
          let named := state.setPage lruPage fun page => { page with id := pageId }
          let accessed ← accessPage fuel named lruPage currentTime
          makeResident accessed pageId currentTime

end

end ComputerSystems.PageLoading
