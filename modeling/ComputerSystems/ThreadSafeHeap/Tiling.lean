import ComputerSystems.ThreadSafeHeap.Calls
import Mathlib.Order.Interval.Set.Defs

/-!
# The block list tiles the region

Splits and frees never merge blocks, and a block that is split stays free, so the
list only grows. Whatever is requested, freed and written outside the headers, it
leads from the start of the region to its end without a gap, the search for a request
ends, and none of the sizes that `thread_safe_malloc` computes wraps around.
-/

namespace ComputerSystems.ThreadSafeHeap

open ComputerSystems.Allocation
open ComputerSystems.Heap (Node Walk nodes)
open ComputerSystems.Loop

variable {place : Placement} {memory : Memory} {state after : State} {blocks : List Block}
  {live : List Allocation}

/-- The nodes tile the region: the first is at its start, each ends where the next
begins, and the last ends where the region ends. So their addresses increase and their
sizes, headers included, add up to the size of the region. -/
structure Tiles (place : Placement) (nodes : List Node) : Prop where
  first : nodes.head?.map Node.address = some place.head
  adjacent : nodes.IsChain fun left right =>
    right.address.toNat = left.address.toNat + sizeofBlock.toNat + left.size.toNat
  last : ∀ node, nodes.getLast? = some node →
    node.address.toNat + sizeofBlock.toNat + node.size.toNat = place.head.toNat + pageSize.toNat
  increasing : nodes.Pairwise fun left right => left.address.toNat < right.address.toNat
  total : (nodes.map fun node => sizeofBlock.toNat + node.size.toNat).sum = pageSize.toNat

/-- What `thread_safe_malloc` computes at the block that serves a request is exact: the
size that it compares, and where the block is split, the address and the size of the
part behind. -/
structure Exact (bytes : BitVec 64) (node : Node) : Prop where
  compared : (bytes + sizeofBlock).toNat = bytes.toNat + sizeofBlock.toNat
  behind : bytes + sizeofBlock < node.size → (node.address + sizeofBlock + bytes).toNat =
    node.address.toNat + sizeofBlock.toNat + bytes.toNat
  remaining : bytes + sizeofBlock < node.size →
    (node.size - sizeofBlock - bytes).toNat + sizeofBlock.toNat + bytes.toNat = node.size.toNat

/-- The bytes of a block header. -/
def header (node : Node) : Set Nat :=
  Set.Ico node.address.toNat (node.address.toNat + sizeofBlock.toNat)

/-- Requests of any size, frees of NULL and of blocks on the list, and assignments
outside the headers. -/
def KeepsHeaders (place : Placement) (state : State) (_live : List Allocation) : Call → Prop
  | .malloc _ => True
  | .free ptr => ptr = 0#64 ∨ OnList place state.memory ptr
  | .put _ _ _ => False
  | .get _ _ => False
  | .assign address _ => ∃ nodes, Walk state.memory place.head nodes ∧
      ∀ node ∈ nodes, address ∉ header node

theorem HeapHolds.tiles (heap : HeapHolds place memory blocks) :
    Tiles place (nodes 32 place.head.toNat blocks) where
  first := by rw [Heap.nodes_head heap.inhabited, BitVec.ofNat_toNat, BitVec.setWidth_eq]
  adjacent := Heap.nodes_adjacent heap.bound
  last node last := (Heap.nodes_last heap.bound last).trans (by rw [heap.whole])
  increasing := Heap.nodes_increasing (by decide) heap.bound
  total := (Heap.nodes_total heap.bound).trans heap.whole

theorem HeapHolds.exact (heap : HeapHolds place memory blocks) {bytes : BitVec 64} {node : Node}
    (first : FirstFit place memory bytes node) : Exact bytes node := by
  rcases heap.firstFit_iff.mp first with ⟨before, block, rest, found, rfl⟩
  rcases found with ⟨rfl, _, _, enough⟩
  have inside := heap.block_inside
  have fits := place.fits
  have address := Heap.address_toNat heap.bound
  have sizes : (BitVec.ofNat 64 block.size).toNat = block.size := by
    rw [BitVec.toNat_ofNat]
    exact Nat.mod_eq_of_lt (by omega)
  have compared : (bytes + sizeofBlock).toNat = bytes.toNat + sizeofBlock.toNat := by
    rw [BitVec.toNat_add, sizeofBlock_toNat]
    omega
  constructor
  · exact compared
  · intro _
    dsimp only
    rw [new_toNat (by omega), sizeofBlock_toNat]
  · intro larger
    dsimp only at larger ⊢
    rw [BitVec.lt_def, compared, sizes, sizeofBlock_toNat] at larger
    rw [BitVec.toNat_sub, BitVec.toNat_sub, sizes, sizeofBlock_toNat]
    omega

/-! ## Runs -/

/-- A request leaves a block list. -/
theorem MallocOutcome.heap {bytes ptr : BitVec 64} (held : HeapHolds place state.memory blocks)
    (outcome : MallocOutcome place state blocks bytes after ptr) :
    ∃ blocks, HeapHolds place after.memory blocks := by
  cases outcome with
  | refused _ same _ =>
      rw [same]
      exact ⟨blocks, held⟩
  | split _ _ _ _ _ _ heap _ => exact ⟨_, heap⟩
  | taken _ _ _ _ _ _ heap _ _ => exact ⟨_, heap⟩

theorem threadSafeFree_null (returns : threadSafeFree state 0#64 = some after) : after = state :=
  (Option.some.inj returns).symm

/-- The block list is a matter of the headers only. -/
theorem HeapHolds.congr_headers (heap : HeapHolds place memory blocks) {other : Memory}
    (same : ∀ node ∈ nodes 32 place.head.toNat blocks, ∀ i ∈ header node, other i = memory i) :
    HeapHolds place other blocks := by
  apply heap.congr
  intro address member i lower upper
  rw [← Heap.nodes_addresses heap.bound] at member
  rcases List.mem_map.mp member with ⟨node, listed, rfl⟩
  exact same node listed i ⟨lower, Nat.lt_of_lt_of_le upper (Nat.add_le_add_left (by decide) _)⟩

/-- An assignment outside the headers leaves the block list as it was. -/
theorem HeapHolds.assign (heap : HeapHolds place memory blocks) {address : Nat} {byte : BitVec 8}
    (outside : ∀ node ∈ nodes 32 place.head.toNat blocks, address ∉ header node) :
    HeapHolds place (Function.update memory address byte) blocks := by
  apply heap.congr_headers
  intro node listed i inside
  apply Function.update_of_ne
  rintro rfl
  exact outside node listed inside

/-- In every run of such calls the region holds a block list. -/
theorem run_heapHolds (run : Run place (KeepsHeaders place) live state) :
    ∃ blocks, HeapHolds place state.memory blocks := by
  induction run with
  | start fresh => exact ⟨_, initHeap_holds place _⟩
  | malloc _ _ returns ih =>
      rcases ih with ⟨blocks, heap⟩
      exact (malloc_returns heap returns).heap heap
  | free _ allowed returns ih =>
      rcases ih with ⟨blocks, heap⟩
      rcases allowed with rfl | onList
      · rw [threadSafeFree_null returns]
        exact ⟨blocks, heap⟩
      · rcases heap.onList_iff.mp onList with ⟨before, block, rest, rfl, payload⟩
        exact ⟨_, (free_returns heap payload returns).1⟩
  | put _ allowed => exact allowed.elim
  | get _ allowed _ => exact allowed.elim
  | assign _ allowed ih =>
      rcases ih with ⟨blocks, heap⟩
      rcases allowed with ⟨walked, walk, outside⟩
      rw [walk.unique heap.walk] at outside
      exact ⟨blocks, heap.assign outside⟩

/-- In every run the block list tiles the region, and a request of any size returns and
computes exact sizes. -/
theorem run_tilesRegion (run : Run place (KeepsHeaders place) live state) :
    (∃ nodes, Walk state.memory place.head nodes ∧ Tiles place nodes) ∧
      ∀ bytes, (∃ after ptr, Completes (threadSafeMalloc place state bytes) (after, ptr)) ∧
        ∀ node, FirstFit place state.memory bytes node → Exact bytes node := by
  rcases run_heapHolds run with ⟨blocks, heap⟩
  refine ⟨⟨_, heap.walk, heap.tiles⟩, ?_⟩
  intro bytes
  rcases exists_malloc heap bytes with ⟨after, ptr, completes, _⟩
  exact ⟨⟨after, ptr, completes⟩, fun node first => heap.exact first⟩

theorem sampleHead_notNull : 0x1000#64 ≠ 0#64 := by decide

/-- A placement. -/
def samplePlacement : Placement where
  head := 0x1000#64
  physMem := 0#64
  page _ := 0x2000000#64
  notNull := sampleHead_notNull
  fits := by decide
  apart _ := Or.inr (by decide)

/-- The variables before `init_heap` has run. -/
def sampleState : State :=
  ⟨fun _ => 0#8, fun _ => 0#32, fun _ => 0#32, 0#32, [], none⟩

theorem sampleState_fresh : Fresh sampleState :=
  ⟨fun _ _ _ => rfl, rfl, rfl⟩

/-- The list tiles the region after a request for 100 bytes. -/
theorem run_tilesRegion_one_request :
    ∃ live state nodes, Run samplePlacement (KeepsHeaders samplePlacement) live state ∧
      Walk state.memory samplePlacement.head nodes ∧ Tiles samplePlacement nodes := by
  have start : Run samplePlacement (KeepsHeaders samplePlacement) []
      (initHeap samplePlacement sampleState) := .start sampleState_fresh
  rcases (run_tilesRegion start).2 100#64 with ⟨⟨after, ptr, completes⟩, _⟩
  have run := start.malloc trivial completes
  rcases (run_tilesRegion run).1 with ⟨nodes, walk, tiles⟩
  exact ⟨_, after, nodes, run, walk, tiles⟩

end ComputerSystems.ThreadSafeHeap
