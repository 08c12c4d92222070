import ComputerSystems.Heap.Headers
import ComputerSystems.ThreadSafeHeap.Core

/-!
# The operations on the block list

The region holds a block list that takes it whole. `thread_safe_malloc` looks for
the first block that is free and large enough; a block with room for another header
is split and both parts stay marked free, any other one is taken whole.
`thread_safe_free` marks a block. Every lemma says which bytes of the region are left
as they were.
-/

namespace ComputerSystems.ThreadSafeHeap

open ComputerSystems.Allocation
open ComputerSystems.Heap (size free next setSize setFree setNext Header Listed Node Walk link nodes
  load_store_word load_store_flag setFree_header)
open ComputerSystems.Loop

variable {place : Placement} {memory other : Memory} {state after : State} {blocks : List Block}

/-! ## Fields -/

/-- Assign all fields of a header but `pageNum` and `data`. -/
def writeHeader (memory : Memory) (block bytes : BitVec 64) (flag : BitVec 32)
    (behind : BitVec 64) : Memory :=
  setSize (setFree (setNext memory block behind) block flag) block bytes

theorem writeHeader_outside {block bytes behind : BitVec 64} {flag : BitVec 32} {i : Nat}
    (outside : i < block.toNat ∨ block.toNat + 24 ≤ i) :
    writeHeader memory block bytes flag behind i = memory i := by
  rw [writeHeader, setSize, setFree, setNext, Memory.store_of_outside (by omega),
    Memory.store_of_outside (by omega), Memory.store_of_outside (by omega)]

theorem writeHeader_header (memory : Memory) (block bytes behind : BitVec 64) {flag : BitVec 32}
    {free : Bool} (marks : flag.toNat ≠ 0 ↔ free = true) :
    Header (writeHeader memory block bytes flag behind) block.toNat ⟨bytes.toNat, free⟩
      behind.toNat := by
  unfold writeHeader setSize setFree setNext
  constructor
  · rw [load_store_word]
  · rw [Memory.load_store_of_disjoint (by omega), load_store_flag]
    exact marks
  · rw [Memory.load_store_of_disjoint (by omega), Memory.load_store_of_disjoint (by omega),
      load_store_word]

theorem data_congr {block : BitVec 64}
    (same : ∀ i, block.toNat + 24 ≤ i → i < block.toNat + 32 → other i = memory i) :
    data other block = data memory block := by
  rw [data, data, Memory.load_congr same]

/-! ## Splitting and taking a block -/

section Block

variable {curr bytes : BitVec 64} {held : Block} {behind : Nat} {rest : List Block}

/-- The address of the header that a split writes behind the first bytes. -/
theorem new_toNat (room : curr.toNat + 32 + bytes.toNat < 2 ^ 64) :
    (curr + sizeofBlock + bytes).toNat = curr.toNat + 32 + bytes.toNat := by
  rw [BitVec.toNat_add, BitVec.toNat_add, sizeofBlock_toNat]
  omega

/-- A split writes a header and changes two fields of the one in front of it. -/
theorem split_eq (room : curr.toNat + 32 + bytes.toNat < 2 ^ 64) :
    split memory curr bytes =
      setSize (setNext (writeHeader memory (curr + sizeofBlock + bytes)
        (size memory curr - sizeofBlock - bytes) 1#32 (next memory curr)) curr
          (curr + sizeofBlock + bytes)) curr bytes := by
  have address := new_toNat room
  have kept : ∀ behind flag, size (setFree (setNext memory (curr + sizeofBlock + bytes) behind)
      (curr + sizeofBlock + bytes) flag) curr = size memory curr := by
    intro behind flag
    rw [size, size, setFree, setNext, Memory.load_store_of_disjoint (by omega),
      Memory.load_store_of_disjoint (by omega)]
  rw [split, kept]
  rfl

/-- A split changes the fields `size`, `free` and `next` of the two headers and nothing else. -/
theorem split_keeps (room : curr.toNat + 32 + bytes.toNat < 2 ^ 64) {i : Nat}
    (first : i < curr.toNat ∨ (curr.toNat + 12 ≤ i ∧ i < curr.toNat + 16) ∨ curr.toNat + 24 ≤ i)
    (second : i < curr.toNat + 32 + bytes.toNat ∨
      (curr.toNat + 32 + bytes.toNat + 12 ≤ i ∧ i < curr.toNat + 32 + bytes.toNat + 16) ∨
      curr.toNat + 32 + bytes.toNat + 24 ≤ i) :
    split memory curr bytes i = memory i := by
  have address := new_toNat room
  rw [split_eq room, writeHeader, setSize, setNext, setSize, setFree, setNext,
    Memory.store_of_outside (by omega), Memory.store_of_outside (by omega),
    Memory.store_of_outside (by omega), Memory.store_of_outside (by omega),
    Memory.store_of_outside (by omega)]

theorem split_outside (room : curr.toNat + 32 + bytes.toNat < 2 ^ 64) {i : Nat}
    (first : i < curr.toNat ∨ curr.toNat + 24 ≤ i)
    (second : i < curr.toNat + 32 + bytes.toNat ∨ curr.toNat + 32 + bytes.toNat + 24 ≤ i) :
    split memory curr bytes i = memory i :=
  split_keeps room (by omega) (by omega)

/-- Both parts of a block that is split stay marked free. -/
theorem split_listed (listed : Listed 32 memory curr.toNat (held :: rest))
    (unused : held.free = true) (room : bytes.toNat + 32 < held.size)
    (bound : curr.toNat + span 32 (held :: rest) < 2 ^ 64) :
    Listed 32 (split memory curr bytes) curr.toNat
      (⟨bytes.toNat, true⟩ :: ⟨held.size - 32 - bytes.toNat, true⟩ :: rest) := by
  rcases listed with ⟨header, tail⟩
  rw [span] at bound
  have inside : curr.toNat + 32 + bytes.toNat < 2 ^ 64 := by omega
  have address := new_toNat inside
  have remaining : (size memory curr - sizeofBlock - bytes).toNat =
      held.size - 32 - bytes.toNat := by
    have sizes : (size memory curr).toNat = held.size := Heap.size_toNat.trans header.size
    rw [BitVec.toNat_sub, BitVec.toNat_sub, sizes, sizeofBlock_toNat]
    omega
  have following : (next memory curr).toNat = link (curr.toNat + 32 + held.size) rest :=
    Heap.next_toNat.trans header.next
  have ending : curr.toNat + 32 + bytes.toNat + 32 + (held.size - 32 - bytes.toNat) =
      curr.toNat + 32 + held.size := by omega
  refine ⟨⟨?_, ?_, ?_⟩, ?_, ?_⟩
  · rw [split_eq inside, setSize, load_store_word]
  · have flag : (split memory curr bytes).load (curr.toNat + 8) 4 =
        memory.load (curr.toNat + 8) 4 := by
      rw [split_eq inside, setSize, setNext, Memory.load_store_of_disjoint (by omega),
        Memory.load_store_of_disjoint (by omega)]
      exact Memory.load_congr fun i lower upper => writeHeader_outside (by omega)
    rw [flag]
    exact header.free.trans (iff_of_true unused rfl)
  · rw [split_eq inside, setSize, setNext, Memory.load_store_of_disjoint (by omega),
      load_store_word, address, link]
  · have written := writeHeader_header memory (curr + sizeofBlock + bytes)
      (size memory curr - sizeofBlock - bytes) (next memory curr)
      (show (1#32).toNat ≠ 0 ↔ true = true by decide)
    rw [address, remaining, following] at written
    rw [ending, split_eq inside]
    refine written.congr fun i lower upper => ?_
    rw [setSize, setNext, Memory.store_of_outside (by omega), Memory.store_of_outside (by omega)]
  · rw [ending]
    refine tail.congr_span (by decide) fun i lower upper => ?_
    exact split_outside inside (by omega) (by omega)

/-- A split leaves the `data` field of the block as it was. -/
theorem split_data (room : curr.toNat + 32 + bytes.toNat < 2 ^ 64) :
    data (split memory curr bytes) curr = data memory curr :=
  data_congr fun i lower upper => split_outside room (by omega) (by omega)

/-- Taking a block changes the fields `free` and `data` of its header and nothing else. -/
theorem take_keeps {i : Nat} (kept : i < curr.toNat + 8 ∨
    (curr.toNat + 12 ≤ i ∧ i < curr.toNat + 24) ∨ curr.toNat + 32 ≤ i) :
    take memory curr i = memory i := by
  rw [take, setData, setFree, Memory.store_of_outside (by omega),
    Memory.store_of_outside (by omega)]

theorem take_outside {i : Nat} (outside : i < curr.toNat ∨ curr.toNat + 32 ≤ i) :
    take memory curr i = memory i :=
  take_keeps (by omega)

/-- A block that is taken whole is marked used. -/
theorem take_listed (listed : Listed 32 memory curr.toNat (held :: rest)) :
    Listed 32 (take memory curr) curr.toNat (⟨held.size, false⟩ :: rest) := by
  rcases listed with ⟨header, tail⟩
  constructor
  · have marked := setFree_header header (show (0#32).toNat ≠ 0 ↔ false = true by decide)
    exact marked.congr fun i lower upper => Memory.store_of_outside (by omega)
  · exact tail.congr_span (by decide) fun i lower upper => take_outside (by omega)

/-- The `data` field of a block that is taken whole leads to its payload. -/
theorem take_data (memory : Memory) (curr : BitVec 64) :
    data (take memory curr) curr = curr + sizeofBlock := by
  rw [data, take, setData, load_store_word, BitVec.ofNat_toNat, BitVec.setWidth_eq]

end Block

end ComputerSystems.ThreadSafeHeap
