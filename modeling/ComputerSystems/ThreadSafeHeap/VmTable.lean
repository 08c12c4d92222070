import ComputerSystems.ThreadSafeHeap.Candidates
import ComputerSystems.ThreadSafeHeap.Dirty

/-!
# The tables of the virtual memory

`createVMtable` of `PracticumV2/mymalloc.c` makes four requests: one for the 40 bytes of a
`struct vmTable_t`, and one for each of its three arrays. When one of the arrays is
missing, only the table is freed.
-/

namespace ComputerSystems.ThreadSafeHeap

open ComputerSystems.Allocation
open ComputerSystems.Heap (size free Node Walk nodes load_store_word)
open ComputerSystems.Loop

/-- `sizeof(vmTable_t)`. -/
def sizeofVmTable : BitVec 64 := 40#64

/-- A pointer of a `struct vmTable_t`, by its offset. -/
def arrayAt (memory : Memory) (table : BitVec 64) (offset : Nat) : BitVec 64 :=
  BitVec.ofNat 64 (memory.load (table.toNat + offset) 8)

/-- Assign to a pointer of a `struct vmTable_t`. -/
def setArrayAt (memory : Memory) (table : BitVec 64) (offset : Nat) (ptr : BitVec 64) : Memory :=
  memory.store (table.toNat + offset) 8 ptr.toNat

/-- Assign to an `int` of a `struct vmTable_t`. -/
def setIntAt (memory : Memory) (table : BitVec 64) (offset : Nat) (value : BitVec 32) : Memory :=
  memory.store (table.toNat + offset) 4 value.toNat

/-- `table->pageNumArr`. -/
def pageNumArr (memory : Memory) (table : BitVec 64) : BitVec 64 :=
  arrayAt memory table 0

/-- `table->frameNumArr`. -/
def frameNumArr (memory : Memory) (table : BitVec 64) : BitVec 64 :=
  arrayAt memory table 8

/-- `table->entryAgeArr`. -/
def entryAgeArr (memory : Memory) (table : BitVec 64) : BitVec 64 :=
  arrayAt memory table 16

/-- `sizeof(int) * length`. -/
def arrayBytes (length : BitVec 32) : BitVec 64 :=
  4#64 * length.signExtend 64

/-- `table->array = thread_safe_malloc(sizeof(int) * length)`. -/
def allocateArray (place : Placement) (table : BitVec 64) (offset : Nat) (length : BitVec 32)
    (state : State) (fuel : Nat) : Outcome State :=
  (threadSafeMalloc place state (arrayBytes length) fuel).map fun (state, ptr) =>
    { state with memory := setArrayAt state.memory table offset ptr }

/-- The loop that clears `table->pageNumArr` from an index on. -/
def clearPageNums (table : BitVec 64) : Nat → Nat → Memory → Memory
  | _, 0, memory => memory
  | i, count + 1, memory =>
      clearPageNums table (i + 1) count
        (memory.store (pageNumArr memory table + 4#64 * BitVec.ofNat 64 i).toNat 4 0)

/-- The call `thread_safe_free(table->array)`. -/
def freeArray (table : BitVec 64) (offset : Nat) (state : State) : Option State :=
  threadSafeFree state (arrayAt state.memory table offset)

/-- What `createVMtable` does once its four requests are made: the state it leaves and the
pointer it returns; undefined where the program exits. -/
def fillTable (state : State) (table : BitVec 64) (length : BitVec 32) :
    Option (State × BitVec 64) :=
  if pageNumArr state.memory table = 0#64 ∨ frameNumArr state.memory table = 0#64 ∨
      entryAgeArr state.memory table = 0#64 then
    (threadSafeFree state table).map fun state => (state, 0#64)
  else
    let memory := setIntAt state.memory table 28 0#32
    let memory := setIntAt memory table 32 0#32
    let memory := setIntAt memory table 36 0#32
    let memory := clearPageNums table 0 length.toInt.toNat memory
    let state := { state with memory }
    if table = 0#64 ∨ pageNumArr memory table = 0#64 ∨ frameNumArr memory table = 0#64 then none
    else if pageNumArr memory table = 0#64 ∨ frameNumArr memory table = 0#64 ∨
        entryAgeArr memory table = 0#64 then
      (((freeArray table 0 state).bind (freeArray table 8)).bind (freeArray table 16)).bind
        fun state => (threadSafeFree state table).map fun state => (state, 0#64)
    else some (state, table)

/-- A result, or the end of the program. -/
def exits {α : Type} : Option α → Outcome α
  | some result => .done result
  | none => .crash

/-- The part of `createVMtable` that allocates and clears the arrays. -/
def createArrays (place : Placement) (table : BitVec 64) (length : BitVec 32) (state : State)
    (fuel : Nat) : Outcome (State × BitVec 64) :=
  (allocateArray place table 0 length state fuel).bind fun state =>
    (allocateArray place table 8 length state fuel).bind fun state =>
      (allocateArray place table 16 length state fuel).bind fun state =>
        exits (fillTable state table length)

/-- `createVMtable`: the state it leaves and the pointer it returns. -/
def createVMtable (place : Placement) (state : State) (length : BitVec 32) (fuel : Nat) :
    Outcome (State × BitVec 64) :=
  (threadSafeMalloc place state sizeofVmTable fuel).bind fun (state, table) =>
    if table = 0#64 then .done (state, 0#64)
    else
      createArrays place table length
        { state with memory := setIntAt state.memory table 24 length } fuel

/-- The blocks on the list that are marked used. -/
def usedBlocks (place : Placement) (memory : Memory) : Set Node :=
  {node | node.free = false ∧ ∃ nodes, Walk memory place.head nodes ∧ node ∈ nodes}

variable {place : Placement} {memory other origin : Memory} {state after : State}
  {blocks blocks' : List Block} {node first : Node} {bytes table ptr : BitVec 64}
  {length : BitVec 32}

/-! ## The requests of `createVMtable` -/

theorem arrayAt_congr {offset : Nat}
    (same : ∀ i, table.toNat + offset ≤ i → i < table.toNat + offset + 8 →
      other i = memory i) : arrayAt other table offset = arrayAt memory table offset := by
  rw [arrayAt, Memory.load_congr same, arrayAt]

/-! ## Blocks of the list -/

/-- A block is found by its address. -/
theorem HeapHolds.node_unique (heap : HeapHolds place memory blocks)
    (member : node ∈ nodes 32 place.head.toNat blocks)
    (also : first ∈ nodes 32 place.head.toNat blocks) (same : first.address = node.address) :
    first = node := by
  rcases Heap.nodes_apart heap.bound also member with equal | apart
  · exact equal
  · rw [same] at apart
    omega

/-- The sizes of the blocks are far from wrapping around. -/
theorem HeapHolds.node_small (heap : HeapHolds place memory blocks) :
    ∀ node ∈ nodes 32 place.head.toNat blocks, node.size.toNat + 32 < 2 ^ 64 := by
  intro node member
  have inside := heap.node_inside member
  have fits := place.fits
  omega

/-! ## One array -/

/-- While a table is made, it lies in a block that the requests do not split. What is in the
other free blocks is what was there at the beginning. -/
structure Tabled (place : Placement) (origin : Memory) (state : State) (table bytes : BitVec 64)
    (blocks : List Block) : Prop where
  heap : HeapHolds place state.memory blocks
  clean : PagesClean state
  own : ∃ node ∈ nodes 32 place.head.toNat blocks, node.address = table - sizeofBlock ∧
    sizeofVmTable.toNat ≤ node.size.toNat ∧ Reserved bytes node
  unused : ∀ node ∈ nodes 32 place.head.toNat blocks, node.free = true →
    node.address ≠ table - sizeofBlock →
      ∀ i, node.address.toNat + 24 ≤ i → i < node.address.toNat + 32 + node.size.toNat →
        state.memory i = origin i

/-- The table lies behind a header of the region. -/
theorem Tabled.table_toNat (tabled : Tabled place origin state table bytes blocks) :
    table.toNat = (table - sizeofBlock).toNat + 32 ∧
      place.head.toNat ≤ (table - sizeofBlock).toNat ∧
      table.toNat + 40 ≤ place.head.toNat + pageSize.toNat := by
  rcases tabled.own with ⟨node, member, address, large, _⟩
  have inside := tabled.heap.node_inside member
  have fits := place.fits
  have amount : sizeofVmTable.toNat = 40 := rfl
  have wrapped : (table - sizeofBlock).toNat = (2 ^ 64 - 32 + table.toNat) % 2 ^ 64 := by
    rw [BitVec.toNat_sub, sizeofBlock_toNat]
  rw [← address] at wrapped ⊢
  omega

/-- No header lies in the table, and no other block overlaps it. -/
theorem Tabled.apart (tabled : Tabled place origin state table bytes blocks)
    (member : node ∈ nodes 32 place.head.toNat blocks) :
    (node.address = table - sizeofBlock ∧ 40 ≤ node.size.toNat) ∨
      node.address.toNat + 32 + node.size.toNat ≤ (table - sizeofBlock).toNat ∨
        table.toNat + 40 ≤ node.address.toNat := by
  rcases tabled.own with ⟨own, listed, address, large, _⟩
  have amount : sizeofVmTable.toNat = 40 := rfl
  have behind := tabled.table_toNat
  rcases Heap.nodes_apart tabled.heap.bound member listed with rfl | apart
  · exact Or.inl ⟨address, large⟩
  · rw [address] at apart
    omega

/-- Assigning to the table keeps the list. -/
theorem Tabled.assign (tabled : Tabled place origin state table bytes blocks)
    (same : ∀ i, i < table.toNat ∨ table.toNat + 40 ≤ i → other i = state.memory i) :
    Tabled place origin { state with memory := other } table bytes blocks where
  heap := by
    refine tabled.heap.congr_headers fun node listed i inside => same i ?_
    have behind := tabled.table_toNat
    rcases inside with ⟨lower, upper⟩
    rw [sizeofBlock_toNat] at upper
    rcases tabled.apart listed with ⟨own, _⟩ | apart
    · rw [own] at upper
      omega
    · omega
  clean := tabled.clean
  own := tabled.own
  unused := by
    intro node listed free different i lower upper
    have behind := tabled.table_toNat
    have apart := (tabled.apart listed).resolve_left fun own => different own.1
    exact (same i (by omega)).trans (tabled.unused node listed free different i lower upper)

/-- A request does not split the block of the table. -/
theorem Tabled.not_own (tabled : Tabled place origin state table bytes blocks)
    (found : first ∈ candidates bytes (nodes 32 place.head.toNat blocks))
    (larger : ¬ Whole bytes first) : first.address ≠ table - sizeofBlock := by
  intro same
  rcases tabled.own with ⟨own, listed, address, _, reserved⟩
  rcases List.mem_filter.mp found with ⟨onList, served⟩
  obtain rfl := tabled.heap.node_unique listed onList (same.trans address.symm)
  exact larger (reserved served)

/-- A request keeps the table. -/
theorem Tabled.request (tabled : Tabled place origin state table bytes blocks)
    (requested : Requested place state bytes blocks after ptr blocks')
    (dirty : after.dirty = state.dirty) : Tabled place origin after table bytes blocks' where
  heap := requested.heap
  clean := by
    rw [PagesClean, dirty]
    exact tabled.clean
  own := by
    rcases tabled.own with ⟨own, listed, address, large, reserved⟩
    rcases mem_requested_of_reserved reserved listed with ⟨flag, kept, still⟩
    refine ⟨⟨own.address, own.size, flag⟩, ?_, address, large, still⟩
    rw [requested.list]
    exact kept
  unused := by
    intro node listed free different i lower upper
    rw [requested.unused node listed free i lower upper]
    rw [requested.list] at listed
    rcases mem_requested_free free listed with known | ⟨first, found, larger, part⟩
    · exact tabled.unused node known free different i lower upper
    · have candidate := List.mem_of_mem_head? found
      rcases List.mem_filter.mp candidate with ⟨onList, served⟩
      rcases serves_iff.mp served with ⟨unused, enough⟩
      have inside := tabled.heap.node_inside onList
      have fits := place.fits
      rw [BitVec.le_def] at enough
      have whole : ¬ first.size.toNat ≤ bytes.toNat + 32 := by
        rw [Whole, BitVec.lt_def, BitVec.toNat_add, sizeofBlock_toNat] at larger
        omega
      refine tabled.unused first onList unused (tabled.not_own candidate larger) i ?_ ?_
      · rcases part with rfl | rfl
        · exact lower
        · dsimp only [remainder] at lower
          rw [BitVec.toNat_add, BitVec.toNat_add, sizeofBlock_toNat] at lower
          omega
      · rcases part with rfl | rfl
        · dsimp only [front] at upper
          omega
        · dsimp only [remainder] at upper
          rw [BitVec.toNat_add, BitVec.toNat_add, BitVec.toNat_sub, BitVec.toNat_sub,
            sizeofBlock_toNat] at upper
          omega

end ComputerSystems.ThreadSafeHeap
