import ComputerSystems.LockedHeap.Practicum

/-!
# What `mergefrag` does to the blocks

The two functions `mergefrag` of `A7/malloc.c` and of `PracticumI/malloc.c` have the same
text. Where they complete, the used blocks are those of before, and the free ones are
unions of free neighbours.
-/

namespace ComputerSystems.LockedHeap.PracticumI

open ComputerSystems.Allocation
open ComputerSystems.Heap
open ComputerSystems.Loop

variable {freeList : BitVec 64} {memory after : Memory} {blocks : List Block}

/-- `mergefrag` of `A7/malloc.c` is this one at the array `mem`. -/
theorem heap_mergefrag_eq (place : Placement) (memory : Memory) :
    Heap.mergefrag place memory = mergefrag place.mem memory :=
  rfl

theorem mergefrag_stable (freeList : BitVec 64) (memory : Memory) :
    Stable (mergefrag freeList memory) :=
  (loop_stable _ _).map _

/-- Where `mergefrag` completes, the list is merged. -/
theorem BlockList.mergefrag (list : BlockList freeList memory blocks)
    (returns : Completes (mergefrag freeList memory) after) :
    ∃ merged, BlockList freeList after merged ∧ Merged 24 freeList.toNat blocks merged := by
  have stable := mergefrag_stable freeList memory
  have coalesces := merge_spec list.holds list.inhabited list.notNull list.bound
  cases pass : coalesce 24 blocks with
  | none =>
      have crashes := (coalesces.crash pass).map Prod.fst
      exact absurd returns (stable.not_completes crashes after)
  | some merged =>
      rcases coalesces.done merged pass with ⟨memory', last, completes, holds, _⟩
      obtain rfl := stable.unique returns (completes.map Prod.fst)
      have result := coalesce_merged freeList.toNat pass
      refine ⟨merged, ⟨holds, coalesce_ne_nil pass, list.notNull, ?_⟩, result⟩
      rw [result.span]
      exact list.bound

/-- In both programs the used blocks keep their order, addresses and sizes, the list takes
the same bytes, and every free block is a union of neighbours that were all free. -/
theorem mergefrag_merges (list : BlockList freeList memory blocks) :
    (∀ after, Completes (mergefrag freeList memory) after →
      ∃ merged, BlockList freeList after merged ∧ Merged 24 freeList.toNat blocks merged) ∧
    ∀ (place : Placement) after, place.mem = freeList →
      Completes (Heap.mergefrag place memory) after →
      ∃ merged, BlockList freeList after merged ∧ Merged 24 freeList.toNat blocks merged := by
  constructor
  · intro after returns
    exact list.mergefrag returns
  · rintro place after rfl returns
    rw [heap_mergefrag_eq] at returns
    exact list.mergefrag returns

/-- Two free blocks and a used one. -/
def threeBlocks : Memory :=
  let memory := writeHeader (fun _ => 0#8) 4096#64 100#64 1#32 4220#64
  let memory := writeHeader memory 4220#64 200#64 1#32 4444#64
  writeHeader memory 4444#64 300#64 0#32 0#64

theorem threeBlocks_list :
    BlockList 4096#64 threeBlocks [⟨100, true⟩, ⟨200, true⟩, ⟨300, false⟩] where
  holds := by
    refine ⟨⟨?_, ?_, ?_⟩, ⟨?_, ?_, ?_⟩, ⟨?_, ?_, ?_⟩, trivial⟩ <;> decide +kernel
  inhabited := List.cons_ne_nil _ _
  notNull := by decide
  bound := by decide

/-- The two free blocks are merged. -/
theorem mergefrag_merges_threeBlocks :
    ∃ after merged, BlockList 4096#64 after merged ∧
      Merged 24 4096 [⟨100, true⟩, ⟨200, true⟩, ⟨300, false⟩] merged := by
  have list := threeBlocks_list
  have coalesces := merge_spec list.holds list.inhabited list.notNull list.bound
  rcases coalesces.done _ rfl with ⟨after, last, completes, _⟩
  exact ⟨after, (mergefrag_merges list).1 after (completes.map Prod.fst)⟩

end ComputerSystems.LockedHeap.PracticumI
