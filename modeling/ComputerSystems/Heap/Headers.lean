import ComputerSystems.Allocation.BlockList
import ComputerSystems.Heap.Core
import Mathlib.Algebra.GroupWithZero.Nat
import Mathlib.Data.List.Basic

/-!
# Headers in memory

Memory lists blocks from an address on when every header has the size and the
flag of its block and leads to the header behind the payload, the last one to
NULL. The fields of a header may be followed by others: the number of bytes that
a header takes is a parameter. The list that the program sees by following `next`
is then the list of blocks, laid out in address order.
-/

namespace ComputerSystems.Heap

open ComputerSystems.Allocation

/-! ## Fields -/

section Fields

variable {memory : Memory} {block : BitVec 64}

theorem size_toNat : (size memory block).toNat = memory.load block.toNat 8 := by
  have bound := Memory.load_lt memory block.toNat 8
  rw [size, BitVec.toNat_ofNat]
  exact Nat.mod_eq_of_lt bound

theorem free_toNat : (free memory block).toNat = memory.load (block.toNat + 8) 4 := by
  have bound := Memory.load_lt memory (block.toNat + 8) 4
  rw [free, BitVec.toNat_ofNat]
  exact Nat.mod_eq_of_lt bound

theorem next_toNat : (next memory block).toNat = memory.load (block.toNat + 16) 8 := by
  have bound := Memory.load_lt memory (block.toNat + 16) 8
  rw [next, BitVec.toNat_ofNat]
  exact Nat.mod_eq_of_lt bound

theorem free_eq_zero_iff : free memory block = 0#32 ↔ memory.load (block.toNat + 8) 4 = 0 := by
  rw [← free_toNat, ← BitVec.toNat_inj]
  rfl

theorem next_eq_zero_iff : next memory block = 0#64 ↔ memory.load (block.toNat + 16) 8 = 0 := by
  rw [← next_toNat, ← BitVec.toNat_inj]
  rfl

end Fields

/-- What lies behind a header is not NULL. -/
theorem ne_null {ptr : BitVec 64} (behind : sizeofBlock.toNat ≤ ptr.toNat) : ptr ≠ 0#64 := by
  rintro rfl
  exact absurd behind (by decide)

/-! ## Blocks in memory -/

/-- The header of a block, with the address its `next` field holds. -/
structure Header (memory : Memory) (address : Nat) (block : Block) (link : Nat) : Prop where
  size : memory.load address 8 = block.size
  free : memory.load (address + 8) 4 ≠ 0 ↔ block.free = true
  next : memory.load (address + 16) 8 = link

/-- The address of the block behind, or NULL behind the last one. -/
def link (address : Nat) : List Block → Nat
  | [] => 0
  | _ :: _ => address

/-- Memory lists blocks from an address on, behind headers of some number of
bytes. -/
def Listed (header : Nat) (memory : Memory) : Nat → List Block → Prop
  | _, [] => True
  | address, block :: rest =>
      Header memory address block (link (address + header + block.size) rest) ∧
        Listed header memory (address + header + block.size) rest

variable {memory other : Memory} {header start : Nat}

theorem link_of_ne_nil {address : Nat} {blocks : List Block} (inhabited : blocks ≠ []) :
    link address blocks = address := by
  cases blocks with
  | nil => exact absurd rfl inhabited
  | cons _ _ => rfl

theorem Header.congr {block : Block} {behind : Nat} (held : Header memory start block behind)
    (same : ∀ i, start ≤ i → i < start + 24 → other i = memory i) :
    Header other start block behind where
  size := by
    rw [Memory.load_congr fun i lower upper => same i (by omega) (by omega)]
    exact held.size
  free := by
    rw [Memory.load_congr fun i lower upper => same i (by omega) (by omega)]
    exact held.free
  next := by
    rw [Memory.load_congr fun i lower upper => same i (by omega) (by omega)]
    exact held.next

/-! ## Assignments to a header -/

theorem load_store_word (memory : Memory) (address : Nat) (word : BitVec 64) :
    (memory.store address 8 word.toNat).load address 8 = word.toNat := by
  have small : word.toNat < 256 ^ 8 := word.isLt
  rw [Memory.load_store_same, Nat.mod_eq_of_lt small]

theorem load_store_flag (memory : Memory) (address : Nat) (flag : BitVec 32) :
    (memory.store address 4 flag.toNat).load address 4 = flag.toNat := by
  have small : flag.toNat < 256 ^ 4 := flag.isLt
  rw [Memory.load_store_same, Nat.mod_eq_of_lt small]

theorem setFree_outside {block : BitVec 64} {flag : BitVec 32} {i : Nat}
    (outside : i < block.toNat ∨ block.toNat + 24 ≤ i) :
    setFree memory block flag i = memory i :=
  Memory.store_of_outside (by omega)

theorem setFree_header {block : BitVec 64} {held : Block} {behind : Nat}
    (unmarked : Header memory block.toNat held behind) {flag : BitVec 32} {free : Bool}
    (marks : flag.toNat ≠ 0 ↔ free = true) :
    Header (setFree memory block flag) block.toNat ⟨held.size, free⟩ behind := by
  unfold setFree
  constructor
  · rw [Memory.load_store_of_disjoint (by omega)]
    exact unmarked.size
  · rw [load_store_flag]
    exact marks
  · rw [Memory.load_store_of_disjoint (by omega)]
    exact unmarked.next

/-! ## Changes elsewhere -/

/-- Only the headers matter. -/
theorem Listed.congr {blocks : List Block} (listed : Listed header memory start blocks)
    (same : ∀ address ∈ headers header start blocks, ∀ i, address ≤ i → i < address + 24 →
      other i = memory i) : Listed header other start blocks := by
  induction blocks generalizing start with
  | nil => trivial
  | cons block rest ih =>
      rcases listed with ⟨held, tail⟩
      constructor
      · exact held.congr (same start List.mem_cons_self)
      · exact ih tail fun address member => same address (List.mem_cons_of_mem _ member)

theorem Listed.congr_span {blocks : List Block} (wide : 24 ≤ header)
    (listed : Listed header memory start blocks)
    (same : ∀ i, start ≤ i → i < start + span header blocks → other i = memory i) :
    Listed header other start blocks := by
  apply listed.congr
  intro address member i lower upper
  have inside := headers_inside member
  exact same i (by omega) (by omega)

theorem Listed.drop {before rest : List Block}
    (listed : Listed header memory start (before ++ rest)) :
    Listed header memory (start + span header before) rest := by
  induction before generalizing start with
  | nil => exact listed
  | cons block before ih =>
      rcases listed with ⟨_, tail⟩
      have address : start + span header (block :: before) =
          start + header + block.size + span header before := by
        rw [span]
        omega
      rw [address]
      exact ih tail

/-- The end of a list can be exchanged for another one. -/
theorem Listed.replace {before rest parts : List Block} (wide : 24 ≤ header)
    (listed : Listed header memory start (before ++ rest)) (inhabited : rest ≠ [])
    (filled : parts ≠ [])
    (same : ∀ i, start ≤ i → i < start + span header before → other i = memory i)
    (replaced : Listed header other (start + span header before) parts) :
    Listed header other start (before ++ parts) := by
  induction before generalizing start with
  | nil => exact replaced
  | cons block before ih =>
      rw [List.cons_append] at listed ⊢
      rcases listed with ⟨held, tail⟩
      rw [span] at same
      have address : start + span header (block :: before) =
          start + header + block.size + span header before := by
        rw [span]
        omega
      rw [address] at replaced
      have filledTail : before ++ parts ≠ [] := fun empty =>
        filled (List.append_eq_nil_iff.mp empty).2
      have inhabitedTail : before ++ rest ≠ [] := fun empty =>
        inhabited (List.append_eq_nil_iff.mp empty).2
      constructor
      · rw [link_of_ne_nil filledTail]
        rw [link_of_ne_nil inhabitedTail] at held
        exact held.congr fun i lower upper => same i lower (by omega)
      · exact ih tail (fun i lower upper => same i (by omega) (by omega)) replaced

/-! ## The list the program walks -/

/-- A block as the program sees it. -/
structure Node where
  address : BitVec 64
  size : BitVec 64
  free : Bool

/-- The nodes met by following `next` from a pointer until NULL. -/
def Walk (memory : Memory) : BitVec 64 → List Node → Prop
  | ptr, [] => ptr = 0#64
  | ptr, node :: rest =>
      ptr ≠ 0#64 ∧ node = ⟨ptr, size memory ptr, free memory ptr ≠ 0#32⟩ ∧
        Walk memory (next memory ptr) rest

/-- The nodes of blocks that are laid out from an address on. -/
def nodes (header : Nat) : Nat → List Block → List Node
  | _, [] => []
  | start, block :: rest =>
      ⟨BitVec.ofNat 64 start, BitVec.ofNat 64 block.size, block.free⟩ ::
        nodes header (start + header + block.size) rest

theorem Walk.unique {ptr : BitVec 64} {left right : List Node} (leftWalk : Walk memory ptr left)
    (rightWalk : Walk memory ptr right) : left = right := by
  induction left generalizing ptr right with
  | nil =>
      cases right with
      | nil => rfl
      | cons node rest => exact absurd leftWalk rightWalk.1
  | cons node rest ih =>
      cases right with
      | nil => exact absurd rightWalk leftWalk.1
      | cons other otherRest =>
          rcases leftWalk with ⟨_, rfl, leftRest⟩
          rcases rightWalk with ⟨_, rfl, rightRest⟩
          rw [ih leftRest rightRest]

/-- What memory lists is what the program walks. -/
theorem Listed.walk {blocks : List Block} {ptr : BitVec 64} (wide : 24 ≤ header)
    (listed : Listed header memory ptr.toNat blocks) (inhabited : blocks ≠ [])
    (notNull : ptr ≠ 0#64) (bound : ptr.toNat + span header blocks < 2 ^ 64) :
    Walk memory ptr (nodes header ptr.toNat blocks) := by
  induction blocks generalizing ptr with
  | nil => exact absurd rfl inhabited
  | cons block rest ih =>
      rcases listed with ⟨held, tail⟩
      rw [span] at bound
      have sizes : size memory ptr = BitVec.ofNat 64 block.size := by
        rw [size, held.size]
      have flag : decide (free memory ptr ≠ 0#32) = block.free := by
        have decided : free memory ptr ≠ 0#32 ↔ block.free = true := by
          rw [ne_eq, free_eq_zero_iff]
          exact held.free
        have same : decide (free memory ptr ≠ 0#32) = decide (block.free = true) :=
          decide_eq_decide.mpr decided
        rw [same, Bool.decide_eq_true]
      refine ⟨notNull, ?_, ?_⟩
      · rw [sizes, flag, BitVec.ofNat_toNat, BitVec.setWidth_eq]
      · have following : (next memory ptr).toNat = link (ptr.toNat + header + block.size) rest := by
          rw [next_toNat]
          exact held.next
        cases rest with
        | nil => exact BitVec.eq_of_toNat_eq following
        | cons second rest =>
            have address : (next memory ptr).toNat = ptr.toNat + header + block.size := following
            rw [← address] at tail ⊢
            have more : next memory ptr ≠ 0#64 := ne_null (by rw [sizeofBlock_toNat]; omega)
            exact ih tail (List.cons_ne_nil _ _) more (by omega)

/-! ## Laid out blocks -/

section Nodes

variable {blocks : List Block} {node : Node}

/-- A node is what the program sees of a cell. -/
theorem nodes_eq (start : Nat) (blocks : List Block) :
    nodes header start blocks = (cells header start blocks).map fun cell =>
      ⟨BitVec.ofNat 64 cell.1, BitVec.ofNat 64 cell.2.size, cell.2.free⟩ := by
  induction blocks generalizing start with
  | nil => rfl
  | cons block rest ih => rw [nodes, cells, ih, List.map_cons]

theorem nodes_append (first second : List Block) :
    nodes header start (first ++ second) =
      nodes header start first ++ nodes header (start + span header first) second := by
  simp only [nodes_eq, cells_append, List.map_append]

theorem nodes_flags (blocks : List Block) :
    (nodes header start blocks).map Node.free = flags blocks := by
  induction blocks generalizing start with
  | nil => rfl
  | cons block rest ih =>
      rw [nodes, List.map_cons, ih]
      rfl

/-- Every node is that of one of the blocks. -/
theorem mem_nodes (member : node ∈ nodes header start blocks) :
    ∃ before block after, blocks = before ++ block :: after ∧
      node = ⟨BitVec.ofNat 64 (start + span header before), BitVec.ofNat 64 block.size,
        block.free⟩ := by
  rw [nodes_eq] at member
  rcases List.mem_map.mp member with ⟨cell, listed, rfl⟩
  rcases mem_cells listed with ⟨before, after, split, address⟩
  exact ⟨before, cell.2, after, split, by rw [address]⟩

/-- The address of a block of a list is not wrapped around. -/
theorem address_toNat {before rest : List Block} {block : Block}
    (bound : start + span header (before ++ block :: rest) < 2 ^ 64) :
    (BitVec.ofNat 64 (start + span header before)).toNat = start + span header before := by
  rw [span_append, span] at bound
  rw [BitVec.toNat_ofNat]
  exact Nat.mod_eq_of_lt (by omega)

/-- Each node ends where the next one begins. -/
theorem nodes_adjacent (bound : start + span header blocks < 2 ^ 64) :
    (nodes header start blocks).IsChain fun left right =>
      right.address.toNat = left.address.toNat + header + left.size.toNat := by
  induction blocks generalizing start with
  | nil => exact List.IsChain.nil
  | cons block rest ih =>
      rw [span] at bound
      have tailBound : start + header + block.size + span header rest < 2 ^ 64 := by omega
      have later := ih tailBound
      cases rest with
      | nil => exact List.isChain_singleton _
      | cons second rest =>
          refine List.IsChain.cons_cons ?_ later
          simp only [BitVec.toNat_ofNat]
          omega

/-- Every node lies in the range of the list. -/
theorem nodes_inside (bound : start + span header blocks < 2 ^ 64)
    (member : node ∈ nodes header start blocks) :
    start ≤ node.address.toNat ∧
      node.address.toNat + header + node.size.toNat ≤ start + span header blocks := by
  rcases mem_nodes member with ⟨before, block, after, rfl, rfl⟩
  rw [span_append, span] at bound ⊢
  simp only [BitVec.toNat_ofNat]
  omega

/-- Two nodes of a list are the same or do not overlap. -/
theorem nodes_apart (bound : start + span header blocks < 2 ^ 64) {left right : Node}
    (leftMember : left ∈ nodes header start blocks)
    (rightMember : right ∈ nodes header start blocks) :
    left = right ∨ left.address.toNat + header + left.size.toNat ≤ right.address.toNat ∨
      right.address.toNat + header + right.size.toNat ≤ left.address.toNat := by
  rw [nodes_eq] at leftMember rightMember
  rcases List.mem_map.mp leftMember with ⟨leftCell, leftListed, rfl⟩
  rcases List.mem_map.mp rightMember with ⟨rightCell, rightListed, rfl⟩
  have leftInside := cells_inside leftListed
  have rightInside := cells_inside rightListed
  rcases cells_apart leftListed rightListed with rfl | apart
  · exact Or.inl rfl
  · right
    simp only [BitVec.toNat_ofNat]
    omega

theorem nodes_increasing (positive : 0 < header) (bound : start + span header blocks < 2 ^ 64) :
    (nodes header start blocks).Pairwise fun left right =>
      left.address.toNat < right.address.toNat := by
  induction blocks generalizing start with
  | nil => exact List.Pairwise.nil
  | cons block rest ih =>
      rw [span] at bound
      have tailBound : start + header + block.size + span header rest < 2 ^ 64 := by omega
      refine List.Pairwise.cons ?_ (ih tailBound)
      intro node member
      have inside := (nodes_inside tailBound member).1
      rw [BitVec.toNat_ofNat]
      omega

theorem nodes_last (bound : start + span header blocks < 2 ^ 64)
    (last : (nodes header start blocks).getLast? = some node) :
    node.address.toNat + header + node.size.toNat = start + span header blocks := by
  induction blocks generalizing start with
  | nil => cases last
  | cons block rest ih =>
      rw [span] at bound ⊢
      cases rest with
      | nil =>
          have only : node = ⟨BitVec.ofNat 64 start, BitVec.ofNat 64 block.size, block.free⟩ :=
            (Option.some.inj last).symm
          rw [span] at bound ⊢
          rw [only, BitVec.toNat_ofNat, BitVec.toNat_ofNat]
          omega
      | cons second rest =>
          have tailBound : start + header + block.size + span header (second :: rest) < 2 ^ 64 := by
            omega
          have later := ih tailBound last
          omega

theorem nodes_total (bound : start + span header blocks < 2 ^ 64) :
    ((nodes header start blocks).map fun node => header + node.size.toNat).sum =
      span header blocks := by
  induction blocks generalizing start with
  | nil => rfl
  | cons block rest ih =>
      rw [span] at bound
      rw [nodes, List.map_cons, List.sum_cons, ih (by omega), span, BitVec.toNat_ofNat]
      omega

/-- The nodes are at the addresses of the headers. -/
theorem nodes_addresses (bound : start + span header blocks < 2 ^ 64) :
    (nodes header start blocks).map (fun node => node.address.toNat) =
      headers header start blocks := by
  induction blocks generalizing start with
  | nil => rfl
  | cons block rest ih =>
      rw [span] at bound
      rw [nodes, headers, List.map_cons, ih (by omega), BitVec.toNat_ofNat,
        Nat.mod_eq_of_lt (by omega)]

theorem nodes_header (bound : start + span header blocks < 2 ^ 64)
    (member : node ∈ nodes header start blocks) :
    node.address.toNat ∈ headers header start blocks := by
  rw [← nodes_addresses bound]
  exact List.mem_map_of_mem member

/-- The first node is that at the start. -/
theorem nodes_head (inhabited : blocks ≠ []) :
    (nodes header start blocks).head?.map Node.address = some (BitVec.ofNat 64 start) := by
  cases blocks with
  | nil => exact absurd rfl inhabited
  | cons block rest => rfl

end Nodes

/-! ## The first block that serves a request -/

/-- A block is free and large enough. -/
def serves (bytes : BitVec 64) (node : Node) : Bool :=
  node.free && decide (bytes ≤ node.size)

section Serves

variable {bytes : BitVec 64} {blocks before rest : List Block} {block : Block}

theorem serves_iff {address : BitVec 64} (small : block.size < 2 ^ 64) :
    serves bytes ⟨address, BitVec.ofNat 64 block.size, block.free⟩ = true ↔
      Fits bytes.toNat block := by
  rw [serves, Bool.and_eq_true, decide_eq_true_iff, BitVec.le_def, BitVec.toNat_ofNat,
    Nat.mod_eq_of_lt small, Fits]

theorem find_nodes_of_none (bound : start + span header blocks < 2 ^ 64)
    (unfit : ∀ block ∈ blocks, ¬ Fits bytes.toNat block) :
    (nodes header start blocks).find? (serves bytes) = none := by
  rw [List.find?_eq_none]
  intro node member
  rcases mem_nodes member with ⟨before, block, rest, rfl, rfl⟩
  rw [span_append, span] at bound
  rw [serves_iff (by omega)]
  exact unfit block (List.mem_append_right _ List.mem_cons_self)

theorem find_nodes_of_fitsFirst (bound : start + span header blocks < 2 ^ 64)
    (first : FitsFirst bytes.toNat blocks before block rest) :
    (nodes header start blocks).find? (serves bytes) =
      some ⟨BitVec.ofNat 64 (start + span header before), BitVec.ofNat 64 block.size,
        block.free⟩ := by
  rw [first.split, span_append, span] at bound
  rw [first.split, nodes_append, List.find?_append, find_nodes_of_none (by omega) first.passed,
    nodes, Option.none_or]
  exact List.find?_cons_of_pos ((serves_iff (by omega)).mpr first.fits)

end Serves

end ComputerSystems.Heap
