import ComputerSystems.ThreadSafeHeap.VmTableFailure

/-!
# When a failing `createVMtable` frees what it has allocated

The first request decides: without a block for the table nothing is left allocated. With one,
the three requests for the arrays run on the list that it leaves. When the table or its first
array is placed by splitting a block, its pointer is what the `data` field of this block
holds; the result is exact where this pointer leads to the payload of the block itself, which
it does once the block was handed out.
-/

namespace ComputerSystems.ThreadSafeHeap

open ComputerSystems.Allocation
open ComputerSystems.Heap (Node Walk nodes)
open ComputerSystems.Loop

/-- The blocks from which an array can be served when the table has been placed. -/
def arrayBlocks (bytes : BitVec 64) (nodes : List Node) : List Node :=
  candidates bytes (requested sizeofVmTable nodes)

/-- The table lies in the block that serves it, and its arrays do not split what it lies in. -/
def TableSound (memory : Memory) (bytes : BitVec 64) (node : Node) : Prop :=
  Whole sizeofVmTable node ∨
    (data memory node.address = node.address + sizeofBlock ∧ 8#64 ≤ bytes)

/-- When the arrays are all there, the first one lies beside the pointers of the table. -/
def ArraySound (memory : Memory) (length : BitVec 32) (node : Node) (found : List Node) : Prop :=
  AllAnswered memory (arrayBytes length) found → ∀ first ∈ found.head?,
    Whole (arrayBytes length) first ∨
      ClearsBeside (data memory first.address) (node.address + sizeofBlock) length

/-- The pointers that the call writes through lead to where it means to write. -/
def Sound (place : Placement) (state : State) (length : BitVec 32) : Prop :=
  ∀ nodes node, Walk state.memory place.head nodes →
    FirstFit place state.memory sizeofVmTable node → Answers state.memory sizeofVmTable node →
      TableSound state.memory (arrayBytes length) node ∧
        ArraySound state.memory length node (arrayBlocks (arrayBytes length) nodes)

variable {place : Placement} {memory : Memory} {state after : State} {live : List Allocation}
  {blocks blocks' : List Block} {node : Node} {listed others : List Node}
  {bytes : BitVec 64} {length : BitVec 32}

/-! ## The block of the table -/

/-- Where the table is when its request is answered. -/
theorem TableSound.address (sound : TableSound memory bytes node)
    (found : candidates sizeofVmTable listed = node :: others) :
    answer memory sizeofVmTable listed = node.address + sizeofBlock := by
  rw [answer, found]
  dsimp only
  split
  · rfl
  · rename_i larger
    exact (sound.resolve_left larger).1

/-- The block of the table is not split any more. -/
theorem TableSound.placed (sound : TableSound memory bytes node)
    (found : candidates sizeofVmTable listed = node :: others) :
    ∃ own ∈ requested sizeofVmTable listed, own.address = node.address ∧
      sizeofVmTable.toNat ≤ own.size.toNat ∧ Reserved bytes own := by
  rcases mem_of_found found with ⟨_, served⟩
  by_cases whole : Whole sizeofVmTable node
  · refine ⟨marked node, marked_requested found whole, rfl, ?_, fun serves => ?_⟩
    · exact BitVec.le_def.mp (serves_iff.mp served).2
    · cases (serves_iff.mp serves).1
  · have part : front sizeofVmTable node ∈
        candidates sizeofVmTable (requested sizeofVmTable listed) := by
      rw [candidates_of_split found whole]
      exact List.mem_cons_self
    refine ⟨front sizeofVmTable node, (List.mem_filter.mp part).1, rfl, Nat.le_refl _,
      fun serves => ?_⟩
    have small := (serves_iff.mp serves).2
    have large := (sound.resolve_left whole).2
    have amount : (front sizeofVmTable node).size = 40#64 := rfl
    rw [amount, BitVec.le_def] at small
    rw [BitVec.le_def] at large
    rw [Whole, amount, BitVec.lt_def, BitVec.toNat_add, sizeofBlock_toNat]
    simp only [BitVec.toNat_ofNat] at small large ⊢
    omega

end ComputerSystems.ThreadSafeHeap
