import ComputerSystems.Allocation.Neighbours
import ComputerSystems.Heap.Payloads

/-!
# How far the list falls apart

`mergefrag` does not merge three free neighbours into one, so `pm_free` can leave two of
them. It never leaves more: what a call adds is gone after the next, and the list stays
as short as its used blocks allow.
-/

namespace ComputerSystems.Heap

open ComputerSystems.Allocation

variable {place : Placement} {memory : Memory} {blocks : List Block}

/-- Setting up the array leaves no pair of free neighbours. -/
theorem freePairs_ready (blocks : List Block) :
    freePairs (flags (ready blocks)) ≤ freePairs (flags blocks) := by
  unfold ready
  split
  · exact Nat.zero_le _
  · exact Nat.le_refl _

/-- Memory holds a block list with at most one pair of free neighbours. -/
def NearlyMerged (place : Placement) (memory : Memory) : Prop :=
  ∃ blocks, HeapHolds place memory blocks ∧ freePairs (flags blocks) ≤ 1

theorem NearlyMerged.malloc {after : Memory} {noOfBytes ptr : BitVec 64}
    (merged : NearlyMerged place memory) (room : noOfBytes.toNat + 24 < 2 ^ 64)
    (returns : Loop.Completes (pmMalloc place memory noOfBytes) (after, ptr)) :
    NearlyMerged place after := by
  rcases merged with ⟨blocks, heap, pairs⟩
  have kept := freePairs_ready blocks
  cases malloc_returns heap room returns with
  | placed before block rest parts split stops fits _ placed =>
      have added := freePairs_fit stops fits
      rw [← split] at added
      exact ⟨_, placed, added.trans (kept.trans pairs)⟩
  | refused _ _ _ _ _ _ _ refused => exact ⟨_, refused, kept.trans pairs⟩

/-- The pairs that a freed block adds are halved by the pass that follows. -/
theorem NearlyMerged.free {after : Memory} {ptr : BitVec 64}
    (merged : NearlyMerged place memory) (used : UsedOnList place memory ptr)
    (returns : Loop.Completes (pmFree place memory ptr) after) : NearlyMerged place after := by
  rcases merged with ⟨blocks, heap, pairs⟩
  rcases heap.usedOnList_iff.mp used with ⟨before, block, rest, rfl, notFree, payload⟩
  rcases free_returns heap payload returns with ⟨blocks, pass, after⟩
  have added := @freePairs_release before rest block notFree
  have halved := freePairs_coalesce pass
  exact ⟨blocks, after, by omega⟩

/-- Run lemma. -/
theorem run_nearlyMerged {calls : List Call} {live : List Allocation}
    (run : Run place (Proper place) calls live memory) : NearlyMerged place memory := by
  induction run with
  | start zeroed => exact ⟨_, zeroed_holds zeroed, Nat.zero_le _⟩
  | malloc _ allowed returns ih => exact ih.malloc allowed returns
  | free _ allowed returns ih => exact ih.free allowed returns

/-- In every run of requests that do not wrap around and frees of used blocks, at most one
pair of neighbours on the list is free, and there are at most two blocks more than twice
the used ones. -/
theorem run_fragmentation {calls : List Call} {live : List Allocation}
    (run : Run place (Proper place) calls live memory) :
    ∃ nodes, Walk memory place.mem nodes ∧ freePairs (nodes.map Node.free) ≤ 1 ∧
      nodes.length ≤ 2 * (nodes.map Node.free).count false + 2 := by
  rcases run_nearlyMerged run with ⟨blocks, heap, pairs⟩
  refine ⟨_, heap.walk, ?_⟩
  have short := (length_le_freePairs (flags blocks)).1
  have length := congrArg List.length (@layout_flags place.mem.toNat blocks)
  rw [List.length_map] at length
  rw [layout_flags, length]
  exact ⟨pairs, by omega⟩

/-- Two blocks of 400 bytes and the rest of the array. -/
theorem run_fragmentation_two_requests :
    ∃ calls live memory nodes,
      Run samplePlacement (Proper samplePlacement) calls live memory ∧
        Walk memory samplePlacement.mem nodes ∧
        nodes.length ≤ 2 * (nodes.map Node.free).count false + 2 := by
  obtain ⟨memory, _, _, run, _⟩ :=
    two_requests (Proper samplePlacement) (show _ < _ by decide) fun _ _ _ =>
      show _ < _ by decide
  rcases run_fragmentation run with ⟨nodes, walk, _, short⟩
  exact ⟨_, _, memory, nodes, run, walk, short⟩

end ComputerSystems.Heap
