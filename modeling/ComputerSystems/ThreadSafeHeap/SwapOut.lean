import ComputerSystems.ThreadSafeHeap.Dirty

/-!
# Blocks that are released and read again

A client is given blocks, fills them with `pm_put` and releases them; no request is placed
in a released block. Every block of the list is then one that was given, as the client has
left it, or has never been handed out and is zero behind its header.
-/

namespace ComputerSystems.ThreadSafeHeap

open ComputerSystems.Allocation
open ComputerSystems.Heap (size free address_toNat setFree)
open ComputerSystems.Loop

/-- A block that a client was given: what was put into it last, and whether it has been
released. -/
structure Given where
  ptr : BitVec 64
  latest : Option (List (BitVec 8))
  released : Bool

/-- Note something about the block of a pointer. -/
def note (ptr : BitVec 64) (change : Given → Given) (given : List Given) : List Given :=
  given.map fun entry => if entry.ptr = ptr then change entry else entry

/-- The blocks after `thread_safe_malloc` has returned: NULL is none. -/
def handedOut (ptr : BitVec 64) (given : List Given) : List Given :=
  if ptr = 0#64 then given else ⟨ptr, none, false⟩ :: given

/-- What is put into a block is noted. -/
def Given.fill (bytes : List (BitVec 8)) (entry : Given) : Given :=
  { entry with latest := some bytes }

/-- That a block is released is noted. -/
def Given.release (entry : Given) : Given :=
  { entry with released := true }

/-- Runs from `init_heap` on with a page file: requests that return no released block, calls
of `pm_put` with as many bytes as a block has (any other number changes nothing) and of
`thread_safe_free` for blocks that are not released, and calls of `pm_get` for any block that
was given. -/
inductive SwapRun (place : Placement) (pagefile : Option File) : List Given → State → Prop
  | start {state : State} (fresh : Fresh state) (file : state.pagefile = pagefile) :
      SwapRun place pagefile [] (initHeap place state)
  | malloc {given : List Given} {state after : State} {bytes ptr : BitVec 64}
      (run : SwapRun place pagefile given state)
      (returns : Completes (threadSafeMalloc place state bytes) (after, ptr))
      (anew : ∀ entry ∈ given, entry.released = true → entry.ptr ≠ ptr) :
      SwapRun place pagefile (handedOut ptr given) after
  | put {given : List Given} {state : State} {entry : Given} {noOfBytes : BitVec 64}
      {bytes : List (BitVec 8)} (run : SwapRun place pagefile given state)
      (member : entry ∈ given) (live : entry.released = false)
      (exact : size state.memory (entry.ptr - sizeofBlock) = noOfBytes)
      (full : bytes.length = noOfBytes.toNat) :
      SwapRun place pagefile (note entry.ptr (Given.fill bytes) given)
        (pmPut state entry.ptr bytes noOfBytes)
  | free {given : List Given} {state after : State} {entry : Given}
      (run : SwapRun place pagefile given state) (member : entry ∈ given)
      (live : entry.released = false) (returns : threadSafeFree state entry.ptr = some after) :
      SwapRun place pagefile (note entry.ptr Given.release given) after
  | get {given : List Given} {state after : State} {entry : Given} {noOfBytes : BitVec 64}
      {out : Option (List (BitVec 8))} (run : SwapRun place pagefile given state)
      (member : entry ∈ given) (returns : pmGet state entry.ptr noOfBytes = some (after, out)) :
      SwapRun place pagefile given after

/-- In every run with a page file `pm_get` returns for a released block, with its size, what
was put into it last. -/
def RoundTrips (place : Placement) (pagefile : Option File) : Prop :=
  ∀ given state entry written, SwapRun place pagefile given state → entry ∈ given →
    entry.released = true → entry.latest = some written →
      ∃ after, pmGet state entry.ptr (BitVec.ofNat 64 written.length) = some (after, some written)

/-- A block that was never handed out: it is free, and its bytes are zero, apart from the
fields `size`, `free` and `next` of its header. -/
structure Untaken (memory : Memory) (address : Nat) (block : Block) : Prop where
  free : block.free = true
  number : ∀ i, address + 12 ≤ i → i < address + 16 → memory i = 0#8
  payload : ∀ i, address + 24 ≤ i → i < address + 32 + block.size → memory i = 0#8

/-- A block that was given is as the client has left it. -/
structure Intact (memory : Memory) (address : Nat) (block : Block) (entry : Given) : Prop where
  ptr : entry.ptr.toNat = address + 32
  released : block.free = entry.released
  number : ∀ i, address + 12 ≤ i → i < address + 16 → memory i = 0#8
  data : data memory (entry.ptr - sizeofBlock) = entry.ptr
  latest : ∀ written, entry.latest = some written →
    memory.bytes entry.ptr.toNat block.size = written

/-- The blocks of the list are those that were given and some that were never handed out. -/
structure Swaps (place : Placement) (memory : Memory) (blocks : List Block)
    (given : List Given) : Prop where
  owned : ∀ entry ∈ given, ∃ cell ∈ cells 32 place.head.toNat blocks,
    Intact memory cell.1 cell.2 entry
  others : ∀ cell ∈ cells 32 place.head.toNat blocks, Untaken memory cell.1 cell.2 ∨
    ∃ entry ∈ given, entry.ptr.toNat = cell.1 + 32

variable {place : Placement} {memory other : Memory} {state after : State}
  {blocks before rest parts : List Block} {block : Block} {given changed : List Given}
  {entry : Given} {bytes ptr : BitVec 64} {address : Nat} {cell : Nat × Block}

/-! ## One block -/

theorem Untaken.congr (untaken : Untaken memory address block)
    (same : ∀ i, address ≤ i → i < address + 32 + block.size → other i = memory i) :
    Untaken other address block where
  free := untaken.free
  number i lower upper := (same i (by omega) (by omega)).trans (untaken.number i lower upper)
  payload i lower upper := (same i (by omega) upper).trans (untaken.payload i lower upper)

/-- The `data` field of a block that was never handed out is NULL. -/
theorem Untaken.data (untaken : Untaken memory address block) {header : BitVec 64}
    (placed : header.toNat = address) : ThreadSafeHeap.data memory header = 0#64 := by
  have zero : memory.load (header.toNat + 24) 8 = 0 :=
    Memory.load_eq_zero fun i lower upper => untaken.payload i (by omega) (by omega)
  rw [ThreadSafeHeap.data, zero]

theorem Intact.header (intact : Intact memory address block entry) :
    (entry.ptr - sizeofBlock).toNat = address :=
  header_toNat intact.ptr

theorem Intact.congr (intact : Intact memory address block entry)
    (same : ∀ i, address ≤ i → i < address + 32 + block.size → other i = memory i) :
    Intact other address block entry where
  ptr := intact.ptr
  released := intact.released
  number i lower upper := (same i (by omega) (by omega)).trans (intact.number i lower upper)
  data := by
    have header := intact.header
    refine Eq.trans (data_congr fun i lower upper => ?_) intact.data
    exact same i (by omega) (by omega)
  latest written put := by
    have behind := intact.ptr
    rw [← intact.latest written put]
    exact Memory.bytes_congr fun i lower upper => same i (by omega) (by omega)

/-- The page number of a block that was given is 0. -/
theorem Intact.pageNum (intact : Intact memory address block entry) :
    ThreadSafeHeap.pageNum memory (entry.ptr - sizeofBlock) = 0#32 := by
  have header := intact.header
  have zero : memory.load ((entry.ptr - sizeofBlock).toNat + 12) 4 = 0 :=
    Memory.load_eq_zero fun i lower upper => intact.number i (by omega) (by omega)
  rw [ThreadSafeHeap.pageNum, zero]

/-! ## The list -/

/-- The block of an entry, by its address. -/
theorem Swaps.own (swaps : Swaps place memory blocks given) (member : entry ∈ given)
    (listed : cell ∈ cells 32 place.head.toNat blocks) (same : entry.ptr.toNat = cell.1 + 32) :
    Intact memory cell.1 cell.2 entry := by
  rcases swaps.owned entry member with ⟨own, known, intact⟩
  have behind := intact.ptr
  rw [cells_unique (by decide) listed known (by omega)] at intact
  exact intact

/-- No client was given a block that was never handed out. -/
theorem Swaps.unowned (swaps : Swaps place memory blocks given)
    (listed : cell ∈ cells 32 place.head.toNat blocks) (untaken : Untaken memory cell.1 cell.2)
    (member : entry ∈ given) : entry.ptr.toNat ≠ cell.1 + 32 := by
  intro same
  have intact := swaps.own member listed same
  exact payload_ne_null intact.ptr (intact.data.symm.trans (untaken.data intact.header))

/-- A change to one block, which may replace it by several. -/
theorem Swaps.replace (swaps : Swaps place memory (before ++ block :: rest) given)
    (heap : HeapHolds place memory (before ++ block :: rest))
    (room : span 32 parts = 32 + block.size)
    (same : ∀ i, place.head.toNat ≤ i → i < place.head.toNat + pageSize.toNat →
      i < place.head.toNat + span 32 before ∨
        place.head.toNat + span 32 before + 32 + block.size ≤ i → other i = memory i)
    (known : ∀ entry : Given, entry.ptr.toNat ≠ place.head.toNat + span 32 before + 32 →
      (entry ∈ changed ↔ entry ∈ given))
    (own : ∀ entry ∈ changed, entry.ptr.toNat = place.head.toNat + span 32 before + 32 →
      ∃ cell ∈ cells 32 (place.head.toNat + span 32 before) parts,
        Intact other cell.1 cell.2 entry)
    (cover : ∀ cell ∈ cells 32 (place.head.toNat + span 32 before) parts,
      Untaken other cell.1 cell.2 ∨ ∃ entry ∈ changed, entry.ptr.toNat = cell.1 + 32) :
    Swaps place other (before ++ (parts ++ rest)) changed := by
  have whole := heap.whole
  rw [span_append, span] at whole
  -- The cells in front of the block and behind it hold what they held.
  have kept : ∀ cell, cell ∈ cells 32 place.head.toNat before ∨
      cell ∈ cells 32 (place.head.toNat + span 32 before + 32 + block.size) rest →
      cell.1 ≠ place.head.toNat + span 32 before ∧
        ∀ i, cell.1 ≤ i → i < cell.1 + 32 + cell.2.size → other i = memory i := by
    rintro cell (front | back)
    · have inside := cells_inside front
      exact ⟨by omega, fun i lower upper => same i (by omega) (by omega) (by omega)⟩
    · have inside := cells_inside back
      exact ⟨by omega, fun i lower upper => same i (by omega) (by omega) (by omega)⟩
  constructor
  · intro entry member
    by_cases here : entry.ptr.toNat = place.head.toNat + span 32 before + 32
    · rcases own entry member here with ⟨cell, listed, intact⟩
      exact ⟨cell, (mem_cells_replace room).mpr (Or.inr (Or.inl listed)), intact⟩
    · rcases swaps.owned entry ((known entry here).mp member) with ⟨cell, listed, intact⟩
      rcases mem_cells_split.mp listed with front | rfl | back
      · exact ⟨cell, (mem_cells_replace room).mpr (Or.inl front),
          intact.congr (kept cell (Or.inl front)).2⟩
      · exact absurd intact.ptr here
      · exact ⟨cell, (mem_cells_replace room).mpr (Or.inr (Or.inr back)),
          intact.congr (kept cell (Or.inr back)).2⟩
  · intro cell listed
    have elsewhere : cell ∈ cells 32 place.head.toNat before ∨
        cell ∈ cells 32 (place.head.toNat + span 32 before + 32 + block.size) rest →
        Untaken other cell.1 cell.2 ∨ ∃ entry ∈ changed, entry.ptr.toNat = cell.1 + 32 := by
      intro beside
      rcases kept cell beside with ⟨different, unchanged⟩
      have earlier : cell ∈ cells 32 place.head.toNat (before ++ block :: rest) :=
        mem_cells_split.mpr (beside.imp_right Or.inr)
      rcases swaps.others cell earlier with untaken | ⟨entry, member, behind⟩
      · exact Or.inl (untaken.congr unchanged)
      · exact Or.inr ⟨entry, (known entry (by omega)).mpr member, behind⟩
    rcases (mem_cells_replace room).mp listed with front | part | back
    · exact elsewhere (Or.inl front)
    · exact cover cell part
    · exact elsewhere (Or.inr back)

/-- The region is zero behind the first header. -/
theorem initHeap_swaps (place : Placement) (state : State) :
    Swaps place (initHeap place state).memory [⟨pageSize.toNat - 32, true⟩] [] := by
  have zero : ∀ i, place.head.toNat ≤ i → i < place.head.toNat + pageSize.toNat →
      (place.head.toNat + 12 ≤ i ∧ i < place.head.toNat + 16) ∨ place.head.toNat + 24 ≤ i →
      (initHeap place state).memory i = 0#8 := by
    intro i lower upper outside
    rw [initHeap, Heap.setSize, setFree, Heap.setNext]
    dsimp only
    rw [Memory.store_of_outside (by omega), Memory.store_of_outside (by omega),
      Memory.store_of_outside (by omega), if_pos ⟨lower, upper⟩]
  have large : 32 ≤ pageSize.toNat := by decide
  constructor
  · intro entry member
    cases member
  · intro cell listed
    rw [cells, cells, List.mem_singleton] at listed
    subst listed
    refine Or.inl ⟨rfl, fun i lower upper => ?_, fun i lower upper => ?_⟩
    · dsimp only at lower upper
      exact zero i (by omega) (by omega) (Or.inl ⟨lower, upper⟩)
    · dsimp only at lower upper
      exact zero i (by omega) (by omega) (Or.inr lower)

/-! ## Requests -/

section Malloc

/-- A request that returns no released block is placed in one that was never handed out. -/
theorem Swaps.untaken (swaps : Swaps place memory (before ++ block :: rest) given)
    (heap : HeapHolds place memory (before ++ block :: rest)) (unused : block.free = true)
    (placed : ptr = data memory (BitVec.ofNat 64 (place.head.toNat + span 32 before)) ∨
      ptr.toNat = place.head.toNat + span 32 before + 32)
    (anew : ∀ entry ∈ given, entry.released = true → entry.ptr ≠ ptr) :
    Untaken memory (place.head.toNat + span 32 before) block := by
  have listed : (place.head.toNat + span 32 before, block) ∈
      cells 32 place.head.toNat (before ++ block :: rest) := cell_mem_cells _ before rest block
  rcases swaps.others _ listed with untaken | ⟨entry, member, behind⟩
  · exact untaken
  · have intact := swaps.own member listed behind
    have released : entry.released = true := intact.released.symm.trans unused
    have header : BitVec.ofNat 64 (place.head.toNat + span 32 before) =
        entry.ptr - sizeofBlock := by
      rw [← BitVec.toNat_inj, intact.header, address_toNat heap.bound]
    rcases placed with returned | returned
    · rw [header, intact.data] at returned
      exact absurd returned.symm (anew entry member released)
    · have same : entry.ptr = ptr := BitVec.eq_of_toNat_eq (behind.trans returned.symm)
      exact absurd same (anew entry member released)

/-- The parts of a block that was never handed out, behind the headers that a split writes. -/
theorem Untaken.divided (untaken : Untaken memory address block) {front : Nat}
    (room : front + 32 ≤ block.size)
    (kept : ∀ i, i < address + 32 + block.size →
      (address + 12 ≤ i ∧ i < address + 16) ∨ address + 24 ≤ i →
      i < address + 32 + front ∨
        (address + 32 + front + 12 ≤ i ∧ i < address + 32 + front + 16) ∨
        address + 32 + front + 24 ≤ i → other i = memory i) :
    Untaken other address ⟨front, true⟩ ∧
      Untaken other (address + 32 + front) ⟨block.size - 32 - front, true⟩ := by
  constructor
  · refine ⟨rfl, fun i lower upper => ?_, fun i lower upper => ?_⟩
    · rw [kept i (by omega) (by omega) (by omega)]
      exact untaken.number i lower upper
    · dsimp only at upper
      rw [kept i (by omega) (by omega) (by omega)]
      exact untaken.payload i lower (by omega)
  · refine ⟨rfl, fun i lower upper => ?_, fun i lower upper => ?_⟩
    · rw [kept i (by omega) (by omega) (by omega)]
      exact untaken.payload i (by omega) (by omega)
    · dsimp only at upper
      rw [kept i (by omega) (by omega) (by omega)]
      exact untaken.payload i (by omega) (by omega)

/-- A block that is split was never handed out, and neither were its parts. -/
theorem Swaps.split (swaps : Swaps place state.memory (before ++ block :: rest) given)
    (heap : HeapHolds place state.memory (before ++ block :: rest))
    (first : FitsFirst bytes.toNat (before ++ block :: rest) before block rest)
    (larger : bytes.toNat + 32 < block.size)
    (returns : Completes (threadSafeMalloc place state bytes) (after, ptr))
    (untaken : Untaken state.memory (place.head.toNat + span 32 before) block)
    (same : ∀ i, place.head.toNat ≤ i → i < place.head.toNat + pageSize.toNat →
      i < place.head.toNat + span 32 before ∨
        place.head.toNat + span 32 before + 32 + block.size ≤ i →
          after.memory i = state.memory i) :
    Swaps place after.memory
      (before ++ ([⟨bytes.toNat, true⟩, ⟨block.size - 32 - bytes.toNat, true⟩] ++ rest)) given := by
  have inside := heap.block_inside
  have fits := place.fits
  have address := address_toNat heap.bound
  have listed : (place.head.toNat + span 32 before, block) ∈
      cells 32 place.head.toNat (before ++ block :: rest) := cell_mem_cells _ before rest block
  have divided : Untaken after.memory (place.head.toNat + span 32 before) ⟨bytes.toNat, true⟩ ∧
      Untaken after.memory (place.head.toNat + span 32 before + 32 + bytes.toNat)
        ⟨block.size - 32 - bytes.toNat, true⟩ := by
    apply untaken.divided (Nat.le_of_lt larger)
    intro i upper front back
    rw [malloc_memory heap first returns (by omega) (by omega), if_pos larger]
    exact split_keeps (by omega) (by omega) (by omega)
  apply swaps.replace heap (by simp only [span]; omega) same fun _ _ => Iff.rfl
  · intro entry member here
    exact absurd here (swaps.unowned listed untaken member)
  · intro cell part
    rw [cells, cells, cells, List.mem_cons, List.mem_singleton] at part
    left
    rcases part with rfl | rfl
    · exact divided.1
    · exact divided.2

/-- A block that is taken whole was never handed out, and is given now. -/
theorem Swaps.take (swaps : Swaps place state.memory (before ++ block :: rest) given)
    (heap : HeapHolds place state.memory (before ++ block :: rest))
    (first : FitsFirst bytes.toNat (before ++ block :: rest) before block rest)
    (fitting : block.size ≤ bytes.toNat + 32)
    (returns : Completes (threadSafeMalloc place state bytes) (after, ptr))
    (untaken : Untaken state.memory (place.head.toNat + span 32 before) block)
    (returned : ptr.toNat = place.head.toNat + span 32 before + 32)
    (leads : data after.memory (BitVec.ofNat 64 (place.head.toNat + span 32 before)) = ptr)
    (same : ∀ i, place.head.toNat ≤ i → i < place.head.toNat + pageSize.toNat →
      i < place.head.toNat + span 32 before ∨ place.head.toNat + span 32 before + 32 ≤ i →
        after.memory i = state.memory i) :
    Swaps place after.memory (before ++ ([⟨block.size, false⟩] ++ rest))
      (⟨ptr, none, false⟩ :: given) := by
  have inside := heap.block_inside
  have address := address_toNat heap.bound
  have listed : (place.head.toNat + span 32 before, block) ∈
      cells 32 place.head.toNat (before ++ block :: rest) := cell_mem_cells _ before rest block
  have intact : Intact after.memory (place.head.toNat + span 32 before) ⟨block.size, false⟩
      ⟨ptr, none, false⟩ := by
    refine ⟨returned, rfl, fun i lower upper => ?_, ?_, nofun⟩
    · rw [malloc_memory heap first returns (by omega) (by omega), if_neg (by omega),
        take_keeps (by omega)]
      exact untaken.number i lower upper
    · rw [← header_toNat returned, BitVec.ofNat_toNat, BitVec.setWidth_eq] at leads
      exact leads
  apply swaps.replace heap rfl fun i lower upper outside => same i lower upper (by omega)
  · intro entry elsewhere
    rw [List.mem_cons]
    refine or_iff_right ?_
    rintro rfl
    exact elsewhere returned
  · intro entry member here
    refine ⟨(place.head.toNat + span 32 before, ⟨block.size, false⟩), List.mem_cons_self, ?_⟩
    rcases List.mem_cons.mp member with rfl | earlier
    · exact intact
    · exact absurd here (swaps.unowned listed untaken earlier)
  · intro cell part
    rw [cells, cells, List.mem_singleton] at part
    subst part
    exact Or.inr ⟨_, List.mem_cons_self, returned⟩

/-- A request that returns no released block keeps the blocks that were given. -/
theorem Swaps.malloc (swaps : Swaps place state.memory blocks given)
    (heap : HeapHolds place state.memory blocks)
    (returns : Completes (threadSafeMalloc place state bytes) (after, ptr))
    (anew : ∀ entry ∈ given, entry.released = true → entry.ptr ≠ ptr) :
    ∃ blocks, HeapHolds place after.memory blocks ∧
      Swaps place after.memory blocks (handedOut ptr given) := by
  cases malloc_returns heap returns with
  | refused _ unchanged null =>
      rw [unchanged, null, handedOut, if_pos rfl]
      exact ⟨blocks, heap, swaps⟩
  | split before block rest first larger returned placed same =>
      obtain rfl := first.split
      have untaken := swaps.untaken heap first.fits.1 (Or.inl returned) anew
      have null : ptr = 0#64 := returned.trans (untaken.data (address_toNat heap.bound))
      rw [handedOut, if_pos null]
      exact ⟨_, placed, swaps.split heap first larger returns untaken same⟩
  | taken before block rest first fitting returned placed leads same =>
      obtain rfl := first.split
      have untaken := swaps.untaken heap first.fits.1 (Or.inr returned) anew
      rw [handedOut, if_neg (payload_ne_null returned)]
      exact ⟨_, placed, swaps.take heap first fitting returns untaken returned leads same⟩

end Malloc

end ComputerSystems.ThreadSafeHeap
