import ComputerSystems.Heap.Calls

/-!
# The block list tiles the array

Whatever is allocated and freed, following `next` from `freeList` meets headers
that lie one behind the other's payload, from the start of `mem` to its end.
Before the first `pm_malloc` there is no such list yet: the zeroed header is that
of an empty block.
-/

namespace ComputerSystems.Heap

open ComputerSystems.Allocation
open ComputerSystems.Loop

/-- The nodes tile `mem`: the first is at its start, each ends where the next
begins, and the last ends at `HER`. So their addresses increase and their sizes,
headers included, add up to `HER`. -/
structure Tiles (place : Placement) (nodes : List Node) : Prop where
  first : nodes.head?.map Node.address = some place.mem
  adjacent : nodes.IsChain fun left right =>
    right.address.toNat = left.address.toNat + sizeofBlock.toNat + left.size.toNat
  last : ∀ node, nodes.getLast? = some node →
    node.address.toNat + sizeofBlock.toNat + node.size.toNat = place.mem.toNat + her.toNat
  increasing : nodes.Pairwise fun left right => left.address.toNat < right.address.toNat
  total : (nodes.map fun node => sizeofBlock.toNat + node.size.toNat).sum = her.toNat

variable {place : Placement} {memory : Memory} {blocks : List Block}

/-- A block list that takes `mem` whole tiles it. -/
theorem HeapHolds.tiles (heap : HeapHolds place memory blocks)
    (whole : span 24 blocks = her.toNat) : Tiles place (layout place.mem.toNat blocks) := by
  have bound := heap.bound
  rw [layout_eq]
  exact {
    first := by rw [nodes_head heap.inhabited, BitVec.ofNat_toNat, BitVec.setWidth_eq]
    adjacent := nodes_adjacent bound
    last := fun node last => (nodes_last bound last).trans (by rw [whole])
    increasing := nodes_increasing (by decide) bound
    total := (nodes_total bound).trans whole }

/-- Once `pm_malloc` has been called, the block list tiles `mem` after every
call. -/
theorem run_tiles {calls : List Call} {live : List Allocation}
    (run : Run place (Proper place) calls live memory)
    (called : ∃ noOfBytes, .malloc noOfBytes ∈ calls) :
    ∃ nodes, Walk memory place.mem nodes ∧ Tiles place nodes := by
  rcases run_heapHolds run with ⟨blocks, heap, whole⟩
  exact ⟨_, heap.walk, heap.tiles (whole called)⟩

/-- An address for `mem`. -/
def samplePlacement : Placement :=
  ⟨0x1000#64, by decide, by decide⟩

/-- Memory before the first call. -/
def zeroMemory : Memory :=
  fun _ => 0#8

theorem zeroMemory_zeroed (place : Placement) : Zeroed place zeroMemory :=
  fun _ _ _ => rfl

/-- The list tiles `mem` after a first request for 400 bytes. -/
theorem run_tiles_first_request :
    ∃ live memory nodes,
      Run samplePlacement (Proper samplePlacement) [.malloc 400#64] live memory ∧
        Walk memory samplePlacement.mem nodes ∧ Tiles samplePlacement nodes := by
  have heap := zeroed_holds (zeroMemory_zeroed samplePlacement)
  obtain ⟨memory, ptr, completes, _⟩ := exists_malloc heap
    (show (400#64).toNat + 24 < 2 ^ 64 by decide)
  have run : Run samplePlacement (Proper samplePlacement) [.malloc 400#64]
      (allocated [] 400#64 ptr) memory :=
    .malloc (.start (zeroMemory_zeroed samplePlacement)) (show _ < _ by decide) completes
  rcases run_tiles run ⟨400#64, List.mem_singleton_self _⟩ with ⟨nodes, walk, tiles⟩
  exact ⟨_, memory, nodes, run, walk, tiles⟩

/-- Freeing the payload of the zeroed header, before any request, leaves a list of
one empty block. -/
theorem not_tiles_before_first_request :
    ¬ ∀ (place : Placement) calls live memory, Run place (Proper place) calls live memory →
      calls ≠ [] → ∃ nodes, Walk memory place.mem nodes ∧ Tiles place nodes := by
  intro always
  have heap : HeapHolds samplePlacement zeroMemory ([] ++ ⟨0, false⟩ :: []) :=
    zeroed_holds (zeroMemory_zeroed samplePlacement)
  have payload : (samplePlacement.mem + sizeofBlock).toNat =
      samplePlacement.mem.toNat + span 24 [] + 24 := by
    decide
  have used : UsedOnList samplePlacement zeroMemory (samplePlacement.mem + sizeofBlock) :=
    heap.usedOnList_iff.mpr ⟨[], ⟨0, false⟩, [], rfl, rfl, payload⟩
  rcases (free_spec heap payload).1 [⟨0, true⟩] rfl with ⟨after, completes, freed⟩
  have run : Run samplePlacement (Proper samplePlacement)
      [.free (samplePlacement.mem + sizeofBlock)] (released [] _) after :=
    .free (.start (zeroMemory_zeroed samplePlacement)) used completes
  rcases always samplePlacement _ _ after run (List.cons_ne_nil _ _) with ⟨nodes, walk, tiles⟩
  obtain rfl := walk.unique freed.walk
  exact absurd tiles.total (by decide)

end ComputerSystems.Heap
