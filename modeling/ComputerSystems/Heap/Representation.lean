import ComputerSystems.Heap.Headers

/-!
# The block list in memory

Memory holds a block list when it lists the blocks behind headers of 24 bytes. A
change behind the first headers leaves these as they were.
-/

namespace ComputerSystems.Heap

open ComputerSystems.Allocation

/-- Memory holds a block list from an address on. -/
def Holds (memory : Memory) : Nat → List Block → Prop
  | _, [] => True
  | address, block :: rest =>
      Header memory address block (link (address + 24 + block.size) rest) ∧
        Holds memory (address + 24 + block.size) rest

variable {memory other : Memory} {start : Nat}

theorem holds_iff {blocks : List Block} :
    Holds memory start blocks ↔ Listed 24 memory start blocks := by
  induction blocks generalizing start with
  | nil => exact Iff.rfl
  | cons block rest ih => rw [Holds, Listed, ih]

theorem Holds.congr {blocks : List Block} (holds : Holds memory start blocks)
    (same : ∀ i, start ≤ i → i < start + span 24 blocks → other i = memory i) :
    Holds other start blocks :=
  holds_iff.mpr ((holds_iff.mp holds).congr_span (Nat.le_refl 24) same)

theorem Holds.drop {before rest : List Block} (holds : Holds memory start (before ++ rest)) :
    Holds memory (start + span 24 before) rest :=
  holds_iff.mpr (holds_iff.mp holds).drop

/-- The end of a block list can be exchanged for another one. -/
theorem Holds.replace {before rest parts : List Block}
    (holds : Holds memory start (before ++ rest)) (inhabited : rest ≠ []) (filled : parts ≠ [])
    (same : ∀ i, start ≤ i → i < start + span 24 before → other i = memory i)
    (replaced : Holds other (start + span 24 before) parts) :
    Holds other start (before ++ parts) := by
  rw [holds_iff] at holds replaced ⊢
  exact holds.replace (Nat.le_refl 24) inhabited filled same replaced

/-! ## The list the program walks -/

/-- The nodes of a block list that starts at an address. -/
def layout : Nat → List Block → List Node
  | _, [] => []
  | start, block :: rest =>
      ⟨BitVec.ofNat 64 start, BitVec.ofNat 64 block.size, block.free⟩ ::
        layout (start + 24 + block.size) rest

theorem layout_eq (start : Nat) (blocks : List Block) :
    layout start blocks = nodes 24 start blocks := by
  induction blocks generalizing start with
  | nil => rfl
  | cons block rest ih => rw [layout, nodes, ih]

/-- What memory holds is what the program walks. -/
theorem Holds.walk {blocks : List Block} {ptr : BitVec 64} (holds : Holds memory ptr.toNat blocks)
    (inhabited : blocks ≠ []) (notNull : ptr ≠ 0#64)
    (bound : ptr.toNat + span 24 blocks < 2 ^ 64) :
    Walk memory ptr (layout ptr.toNat blocks) := by
  rw [layout_eq]
  exact (holds_iff.mp holds).walk (Nat.le_refl 24) inhabited notNull bound

theorem layout_append (first second : List Block) :
    layout start (first ++ second) =
      layout start first ++ layout (start + span 24 first) second := by
  simp only [layout_eq, nodes_append]

theorem layout_flags (blocks : List Block) :
    (layout start blocks).map Node.free = flags blocks := by
  rw [layout_eq, nodes_flags]

/-- Every node of a layout is one of its blocks. -/
theorem mem_layout {blocks : List Block} {node : Node} (member : node ∈ layout start blocks) :
    ∃ before block after, blocks = before ++ block :: after ∧
      node = ⟨BitVec.ofNat 64 (start + span 24 before), BitVec.ofNat 64 block.size,
        block.free⟩ := by
  rw [layout_eq] at member
  exact mem_nodes member

end ComputerSystems.Heap
